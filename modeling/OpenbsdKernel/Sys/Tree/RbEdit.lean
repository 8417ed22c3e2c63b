import OpenbsdKernel.Sys.Tree.RbHeap

/-!
# Changes at a place

What each write, or group of writes, of the functions does to the tree.
-/
namespace OpenbsdKernel.RbTree

open BinTree Bin

variable {α : Type*} {h : Head α} {ctx : Path α} {d e : Dir} {A B C t : Tree α} {x y : α}
  {c cx cy : Color}

/-- A place that is empty leaves the rest as it is. -/
theorem At.nodup_path (hat : At h ctx t) : (keys (plug ctx .nil)).Nodup := by
  refine nodup_plug.2 ⟨List.nodup_nil, (nodup_plug.1 hat.nodup).2.1, ?_⟩
  simp

theorem At.parent (hat : At h ctx (Bin.join d A (x, c) B)) : h.rbe_parent x = parentKey ctx :=
  (holds_join.1 hat.here).1

theorem At.color (hat : At h ctx (Bin.join d A (x, c) B)) : h.rbe_color x = c :=
  (holds_join.1 hat.here).2.1

theorem At.link (hat : At h ctx (Bin.join d A (x, c) B)) : h.rbe d x = rootKey A :=
  (holds_join.1 hat.here).2.2.1

theorem At.link_swap (hat : At h ctx (Bin.join d A (x, c) B)) : h.rbe d.swap x = rootKey B :=
  (holds_join.1 hat.here).2.2.2.1

theorem At.down (hat : At h ctx (Bin.join d A (x, c) B)) : At h (⟨d, (x, c), B⟩ :: ctx) A :=
  at_cons.2 hat

theorem At.down_swap (hat : At h ctx (Bin.join d A (x, c) B)) : At h (⟨d.swap, (x, c), A⟩ :: ctx) B :=
  at_cons.2 (by rw [join_swap]; exact hat)

variable [DecidableEq α]

theorem At.recolor (hat : At h ctx (Bin.join d A (x, cx) B)) (c : Color) :
    At (h.setColor x c) ctx (Bin.join d A (x, c) B) := by
  obtain ⟨h1, -, h3, h4, hA, hB⟩ := holds_join.1 hat.here
  obtain ⟨-, -, hxA, hxB, -⟩ := nodup_keys_join.1 hat.nodup_here
  have hx := hat.apart x (by simp)
  have habove := hat.above
  rw [rootKey_join] at habove
  refine ⟨?_, holds_join.2 ⟨h1, if_pos rfl, h3, h4, hA.congr ?_, hB.congr ?_⟩, ?_⟩
  · rw [rootKey_join]
    refine habove.congr (fun a ha => same_setColor ?_) rfl
    rintro rfl
    exact hx ha
  · intro a ha
    refine same_setColor ?_
    rintro rfl
    exact hxA ha
  · intro a ha
    refine same_setColor ?_
    rintro rfl
    exact hxB ha
  · rw [keys_plug_congr (keys_label d c cx)]
    exact hat.nodup

/-- A child of the node at the place. -/
theorem At.recolor_child (hat : At h ctx (Bin.join d (Bin.join e A (x, cx) B) (y, cy) C)) (c : Color) :
    At (h.setColor x c) ctx (Bin.join d (Bin.join e A (x, c) B) (y, cy) C) :=
  at_cons.1 (hat.down.recolor c)

theorem At.recolor_far (hat : At h ctx (Bin.join d C (y, cy) (Bin.join e A (x, cx) B))) (c : Color) :
    At (h.setColor x c) ctx (Bin.join d C (y, cy) (Bin.join e A (x, c) B)) := by
  have := at_cons.1 (hat.down_swap.recolor c)
  rwa [join_swap] at this

theorem At.rotate (hat : At h ctx (Bin.join d A (x, cx) (Bin.join d B (y, cy) C))) :
    ∃ h', rbRotate d h x = some h' ∧
      At h' ctx (Bin.join d (Bin.join d A (x, cx) B) (y, cy) C) := by
  obtain ⟨hxp, hxc, hxl, hxr, hA, hyC⟩ := holds_join.1 hat.here
  obtain ⟨-, hyc, hyl, hyr, hB, hC⟩ := holds_join.1 hyC
  obtain ⟨hnA, hnyC, hxA, hxyC, hAyC⟩ := nodup_keys_join.1 hat.nodup_here
  obtain ⟨hnB, hnC, hyB, hyC', hBC⟩ := nodup_keys_join.1 hnyC
  simp only [mem_keys_join, not_or] at hxyC hAyC
  have hapart := hat.apart
  simp only [mem_keys_join] at hapart
  have habove := hat.above
  rw [rootKey_join] at habove hxr
  have hxy : x ≠ y := hxyC.2.1
  have hp : ∀ a ∈ keys (Bin.join d A (x, cx) (Bin.join d B (y, cy) C)), parentKey ctx ≠ some a :=
    fun a ha hpa => hat.apart a ha (mem_of_parentKey hpa)
  simp only [mem_keys_join] at hp
  have hBroot : ∀ a, a ∉ keys B → rootKey B ≠ some a := fun a ha hr => ha (mem_of_rootKey hr)
  -- the heap after each write
  set h₁ := h.setLink d.swap x (rootKey B) with hh₁
  set h₂ := h₁.setParentOf (rootKey B) (some x) with hh₂
  set h₃ := h₂.setParent y (parentKey ctx) with hh₃
  set h₄ := h₃.replaceChild (parentKey ctx) x (some y) with hh₄
  set h₅ := h₄.setLink d y (some x) with hh₅
  set h₆ := h₅.setParent x (some y) with hh₆
  have hrun : rbRotate d h x = some h₆ := by
    have e1 : h₁.rbe d y = rootKey B := (same_setLink hxy.symm).link d |>.trans hyl
    have e2 : h₂.rbe_parent x = parentKey ctx := ((same_setParentOf (hBroot x hxyC.1)).parent).trans hxp
    have e3 : h₃.rbe_parent x = parentKey ctx := (same_setParent hxy).parent.trans e2
    simp only [rbRotate, hxr, Option.map_some, hyl, ← hh₁, e1, ← hh₂, e2, ← hh₃, e3, ← hh₄, ← hh₅,
      ← hh₆]
  have hafter : ∀ a, a ≠ x → a ≠ y → parentKey ctx ≠ some a → Same h₂ h₆ a := fun a hax hay hpa =>
    (((same_setParent hay).trans (same_replaceChild hpa)).trans (same_setLink hay)).trans
      (same_setParent hax)
  have hsame : ∀ a, a ≠ x → a ≠ y → a ∉ keys B → parentKey ctx ≠ some a → Same h h₆ a :=
    fun a hax hay haB hpa => ((same_setLink hax).trans (same_setParentOf (hBroot a haB))).trans
      (hafter a hax hay hpa)
  have hx₃ : Same h₁ h₃ x := (same_setParentOf (hBroot x hxyC.1)).trans (same_setParent hxy)
  have hx₅ : Same h₁ h₅ x := (hx₃.trans (same_replaceChild (hp x (by simp)))).trans (same_setLink hxy)
  have hy₂ : Same h h₂ y := (same_setLink hxy.symm).trans (same_setParentOf (hBroot y hyB))
  have hy₄ : Same h₃ h₄ y := same_replaceChild (hp y (by simp))
  refine ⟨h₆, hrun, ?_, holds_join.2 ⟨?_, ?_, ?_, ?_, holds_join.2 ⟨if_pos rfl, ?_, ?_, ?_, ?_, ?_⟩, ?_⟩, ?_⟩
  · rw [rootKey_join]
    have h3 : Above h₃ ctx (some x) := by
      refine habove.congr (fun a ha => ?_) (setParentOf_root h₁)
      have hne : ∀ b ∈ keys (Bin.join d A (x, cx) (Bin.join d B (y, cy) C)), a ≠ b := by
        rintro b hb rfl
        exact hat.apart a hb ha
      refine ((same_setLink (hne x (by simp))).trans (same_setParentOf (hBroot a ?_))).trans
        (same_setParent (hne y (by simp)))
      exact fun haB => hne a (by simp [haB]) rfl
    refine (h3.replaceChild hat.nodup_path (hapart x (by simp))).congr (fun a ha => ?_) rfl
    have hne : ∀ b ∈ keys (Bin.join d A (x, cx) (Bin.join d B (y, cy) C)), a ≠ b := by
      rintro b hb rfl
      exact hat.apart a hb ha
    exact (same_setLink (hne y (by simp))).trans (same_setParent (hne x (by simp)))
  · calc h₆.rbe_parent y = h₄.rbe_parent y := if_neg hxy.symm
      _ = h₃.rbe_parent y := hy₄.parent
      _ = parentKey ctx := if_pos rfl
  · exact hy₄.color.trans (hy₂.color.trans hyc)
  · rw [rootKey_join]
    exact if_pos ⟨rfl, rfl⟩
  · calc h₆.rbe d.swap y = h₄.rbe d.swap y := if_neg fun he => Dir.swap_ne d he.1
      _ = h₂.rbe d.swap y := hy₄.link _
      _ = rootKey C := (hy₂.link _).trans hyr
  · exact hx₅.color.trans hxc
  · calc h₆.rbe d x = h₁.rbe d x := hx₅.link d
      _ = h.rbe d x := if_neg fun he => Dir.ne_swap d he.1
      _ = rootKey A := hxl
  · exact (hx₅.link _).trans (if_pos ⟨rfl, rfl⟩)
  · refine hA.congr fun a ha => hsame a ?_ ?_ ?_ (hp a (.inl ha))
    · rintro rfl
      exact hxA ha
    · exact (hAyC a ha).2.1
    · exact (hAyC a ha).1
  · have hB₁ : Holds h₁ (some y) B := by
      refine hB.congr fun a ha => same_setLink ?_
      rintro rfl
      exact hxyC.1 ha
    refine (hB₁.setParentOf hnB).congr fun a ha => hafter a ?_ ?_ (hp a (.inr (.inr (.inl ha))))
    · rintro rfl
      exact hxyC.1 ha
    · rintro rfl
      exact hyB ha
  · refine hC.congr fun a ha => hsame a ?_ ?_ ?_ (hp a (.inr (.inr (.inr (.inr ha)))))
    · rintro rfl
      exact hxyC.2.2 ha
    · rintro rfl
      exact hyC' ha
    · exact fun haB => hBC a haB ha
  · rw [keys_plug_congr (keys_rotate d A B C (x, cx) (y, cy))]
    exact hat.nodup

theorem At.rotate_swap (hat : At h ctx (Bin.join d (Bin.join d A (x, cx) B) (y, cy) C)) :
    ∃ h', rbRotate d.swap h y = some h' ∧
      At h' ctx (Bin.join d A (x, cx) (Bin.join d B (y, cy) C)) := by
  rw [← join_swap d C, ← join_swap d B] at hat
  obtain ⟨h', hrun, hat'⟩ := hat.rotate
  refine ⟨h', hrun, ?_⟩
  rwa [join_swap, join_swap] at hat'

/-- The only child of a node takes its place; the node keeps its fields. -/
theorem At.splice (hat : At h ctx (Bin.join d .nil (x, c) t)) :
    At (h.splice x (rootKey t)) ctx t ∧ Same h (h.splice x (rootKey t)) x := by
  obtain ⟨hxp, -, -, -, -, ht⟩ := holds_join.1 hat.here
  obtain ⟨-, hnt, -, hxt, -⟩ := nodup_keys_join.1 hat.nodup_here
  have hapart := hat.apart
  have habove := hat.above
  simp only [mem_keys_join, keys_nil, List.not_mem_nil, false_or] at hapart
  rw [rootKey_join] at habove
  have hroot : ∀ a, a ∉ keys t → rootKey t ≠ some a := fun a ha hr => ha (mem_of_rootKey hr)
  have hp : ∀ a, a = x ∨ a ∈ keys t → parentKey ctx ≠ some a :=
    fun a ha hpa => hapart a ha (mem_of_parentKey hpa)
  rw [Head.splice, hxp]
  refine ⟨⟨?_, ?_, ?_⟩, ?_⟩
  · have h1 : Above (h.setParentOf (rootKey t) (parentKey ctx)) ctx (some x) :=
      habove.congr (fun a ha => same_setParentOf (hroot a fun hat => hapart a (.inr hat) ha))
        (setParentOf_root h)
    exact h1.replaceChild hat.nodup_path (hapart x (.inl rfl))
  · exact (ht.setParentOf hnt).congr fun a ha => same_replaceChild (hp a (.inr ha))
  · refine nodup_plug.2 ⟨hnt, (nodup_plug.1 hat.nodup).2.1, fun a ha => hapart a (.inr ha)⟩
  · exact (same_setParentOf (hroot x hxt)).trans (same_replaceChild (hp x (.inl rfl)))

theorem same_rbSet {a : α} {p : Option α} (hne : a ≠ x) : Same h (h.rbSet x p) a :=
  (((same_setParent hne).trans (same_setLink hne)).trans (same_setLink hne)).trans (same_setColor hne)

/-- A new leaf, linked to the side that the comparison with its parent says. -/
theorem At.attach (hat : At h ctx .nil) (hx : x ∉ pathKeys ctx) {comp : ℤ}
    (hside : ∀ f ∈ ctx.head?, (comp < 0 ↔ f.side = .left)) :
    At ((h.rbSet x (parentKey ctx)).link (parentKey ctx) comp x) ctx (.node .nil (x, .red) .nil) := by
  have habove : Above (h.rbSet x (parentKey ctx)) ctx none := by
    refine hat.above.congr (fun a ha => same_rbSet ?_) rfl
    rintro rfl
    exact hx ha
  have hnodup : (keys (plug ctx (.node .nil (x, .red) .nil))).Nodup := by
    refine nodup_plug.2 ⟨by simp, (nodup_plug.1 hat.nodup).2.1, ?_⟩
    simpa using hx
  have hnew : Holds (h.rbSet x (parentKey ctx)) (parentKey ctx) (.node .nil (x, .red) .nil) := by
    refine ⟨if_pos rfl, if_pos rfl, if_pos ⟨rfl, rfl⟩, ?_, trivial, trivial⟩
    simp [Head.rbSet, Head.setColor, Head.setLink]
  cases ctx with
  | nil => exact ⟨rfl, hnew.congr fun a _ => ⟨fun _ => rfl, rfl, rfl⟩, hnodup⟩
  | cons f ctx =>
    obtain ⟨d, ⟨a, c⟩, s⟩ := f
    have hxa : x ≠ a := fun hxa => hx (mem_pathKeys_cons.2 (.inl hxa))
    have hheap : ((h.rbSet x (some a)).link (some a) comp x) = (h.rbSet x (some a)).setLink d a (some x) := by
      have := hside _ rfl
      rw [Head.link]
      cases d with
      | left => exact if_pos (this.2 rfl)
      | right => exact if_neg fun hlt => nomatch this.1 hlt
    rw [parentKey, hheap]
    refine ⟨habove.setLink hat.nodup_path, hnew.congr fun b hb => same_setLink ?_, hnodup⟩
    simp only [keys_node, keys_nil, List.nil_append, List.mem_singleton] at hb
    rw [hb]
    exact hxa

theorem same_copy {a : α} (hne : a ≠ y) : Same h (h.copy y x) a :=
  (((same_setLink hne).trans (same_setLink hne)).trans (same_setParent hne)).trans (same_setColor hne)

/-- Another element takes the fields of one in the tree, and all that points to it. -/
theorem At.rename (hat : At h ctx (.node A (x, c) B)) (hy : y ∉ keys (plug ctx (.node A (x, c) B))) :
    At ((((h.copy y x).replaceChild (parentKey ctx) x (some y)).setParentOf (rootKey A) (some y)).setParentOf
      (rootKey B) (some y)) ctx (.node A (y, c) B) := by
  obtain ⟨hxp, hxc, hxl, hxr, hA, hB⟩ := hat.here
  obtain ⟨hnA, hnB, hxA, hxB, hAB⟩ := (nodup_keys_join (d := .left)).1 hat.nodup_here
  rw [mem_keys_plug, keys_node, not_or, List.mem_append, List.mem_cons] at hy
  simp only [not_or] at hy
  obtain ⟨⟨hyA, hyx, hyB⟩, hyctx⟩ := hy
  have hapart := hat.apart
  simp only [keys_node, List.mem_append, List.mem_cons] at hapart
  have hrootA : ∀ a, a ∉ keys A → rootKey A ≠ some a := fun a ha hr => ha (mem_of_rootKey hr)
  have hrootB : ∀ a, a ∉ keys B → rootKey B ≠ some a := fun a ha hr => ha (mem_of_rootKey hr)
  have hp : ∀ a, a ∉ pathKeys ctx → parentKey ctx ≠ some a := fun a ha hpa => ha (mem_of_parentKey hpa)
  set h₁ := h.copy y x with hh₁
  set h₂ := h₁.replaceChild (parentKey ctx) x (some y) with hh₂
  set h₃ := h₂.setParentOf (rootKey A) (some y) with hh₃
  set h₄ := h₃.setParentOf (rootKey B) (some y) with hh₄
  have hy₄ : Same h₁ h₄ y := ((same_replaceChild (hp y hyctx)).trans (same_setParentOf (hrootA y hyA))).trans
    (same_setParentOf (hrootB y hyB))
  refine ⟨?_, ⟨?_, ?_, ?_, ?_, ?_, ?_⟩, ?_⟩
  · have h1 : Above h₁ ctx (some x) := by
      refine hat.above.congr (fun a ha => same_copy ?_) rfl
      rintro rfl
      exact hyctx ha
    refine (h1.replaceChild hat.nodup_path (hapart x (by simp))).congr (fun a ha => ?_) ?_
    · exact (same_setParentOf (hrootA a fun haA => hapart a (by simp [haA]) ha)).trans
        (same_setParentOf (hrootB a fun haB => hapart a (by simp [haB]) ha))
    · exact (setParentOf_root h₃).trans (setParentOf_root h₂)
  · exact hy₄.parent.trans ((if_pos rfl).trans hxp)
  · exact hy₄.color.trans ((if_pos rfl).trans hxc)
  · rw [hy₄.link, ← hxl]
    simp [hh₁, Head.copy, Head.setLink, Head.setColor, Head.setParent]
  · rw [hy₄.link, ← hxr]
    simp [hh₁, Head.copy, Head.setLink, Head.setColor, Head.setParent]
  · have hA₂ : Holds h₂ (some x) A := by
      refine hA.congr fun a ha => (same_copy ?_).trans (same_replaceChild (hp a (hapart a (.inl ha))))
      rintro rfl
      exact hyA ha
    exact (hA₂.setParentOf hnA).congr fun a ha => same_setParentOf (hrootB a (hAB a ha))
  · have hB₃ : Holds h₃ (some x) B := by
      refine hB.congr fun a ha => ((same_copy ?_).trans (same_replaceChild (hp a
        (hapart a (.inr (.inr ha)))))).trans (same_setParentOf (hrootA a fun haA => hAB a haA ha))
      rintro rfl
      exact hyB ha
    exact hB₃.setParentOf hnB
  · have hnodup := nodup_plug.1 hat.nodup
    refine nodup_plug.2 ⟨(nodup_keys_join (d := .left)).2 ⟨hnA, hnB, hyA, hyB, hAB⟩, hnodup.2.1, ?_⟩
    intro a ha
    simp only [keys_node, List.mem_append, List.mem_cons] at ha
    obtain ha | rfl | ha := ha
    · exact hapart a (.inl ha)
    · exact hyctx
    · exact hapart a (.inr (.inr ha))

end OpenbsdKernel.RbTree
