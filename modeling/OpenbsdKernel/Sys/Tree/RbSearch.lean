import OpenbsdKernel.Sys.Tree.RbInsertColor

/-!
# Ways through a red-black tree

The loops that go down from the root, and from an element to the next one.
-/
namespace OpenbsdKernel.RbTree

open BinTree Bin

variable {α : Type*} {h : Head α} {ctx : Path α} {d : Dir} {L R t u : Tree α} {x a : α} {c : Color}
  {o : Option α}

/-- What lies before a place. -/
def lowKeys (ctx : Path α) : List α := (before ctx).map Prod.fst

/-- What lies after a place. -/
def highKeys (ctx : Path α) : List α := (after ctx).map Prod.fst

theorem keys_plug_eq : keys (plug ctx t) = lowKeys ctx ++ (keys t ++ highKeys ctx) := keys_plug

@[simp] theorem lowKeys_left (x : α × Color) : lowKeys (⟨.left, x, t⟩ :: ctx) = lowKeys ctx := rfl

@[simp] theorem lowKeys_right (x : α × Color) :
    lowKeys (⟨.right, x, t⟩ :: ctx) = lowKeys ctx ++ (keys t ++ [x.1]) := by
  simp [lowKeys, before, keys]

@[simp] theorem highKeys_left (x : α × Color) :
    highKeys (⟨.left, x, t⟩ :: ctx) = x.1 :: (keys t ++ highKeys ctx) := by
  simp [highKeys, after, keys]

@[simp] theorem highKeys_right (x : α × Color) : highKeys (⟨.right, x, t⟩ :: ctx) = highKeys ctx := rfl

section Walk

variable {comp : α → ℤ} {w : Walk α}

/-- The loop on its way down, at a place between what is smaller and what is greater. -/
structure Walking (comp : α → ℤ) (h : Head α) (ctx : Path α) (t : Tree α) (w : Walk α) : Prop extends
    At h ctx t where
  tmp : w.tmp = rootKey t
  parent : w.parent = parentKey ctx
  res : w.res = (highKeys ctx).head?
  low : ∀ a ∈ lowKeys ctx, 0 < comp a
  high : ∀ a ∈ highKeys ctx, comp a < 0
  side : ∀ f ∈ ctx.head?, (w.comp < 0 ↔ f.side = .left)

theorem Walking.left (hw : Walking comp h ctx (.node L (x, c) R) w) (hsteady : Steady comp (keys (.node L (x, c) R)))
    (hx : comp x < 0) :
    Walking comp h (⟨.left, (x, c), R⟩ :: ctx) L ⟨h.rbe .left x, some x, some x, comp x⟩ := by
  have hat : At h ctx (Bin.join .left L (x, c) R) := hw.toAt
  rw [Steady, keys_node, List.pairwise_append, List.pairwise_cons] at hsteady
  refine ⟨hat.down, hat.link, rfl, by simp, ?_, ?_, ?_⟩
  · rw [lowKeys_left]
    exact hw.low
  · intro a ha
    rw [highKeys_left, List.mem_cons, List.mem_append] at ha
    obtain rfl | ha | ha := ha
    · exact hx
    · exact (hsteady.2.1.1 a ha).1 hx.le
    · exact hw.high a ha
  · simp [hx]

theorem Walking.right (hw : Walking comp h ctx (.node L (x, c) R) w) (hsteady : Steady comp (keys (.node L (x, c) R)))
    (hx : 0 < comp x) :
    Walking comp h (⟨.right, (x, c), L⟩ :: ctx) R ⟨h.rbe .right x, some x, w.res, comp x⟩ := by
  have hat : At h ctx (Bin.join .left L (x, c) R) := hw.toAt
  rw [Steady, keys_node, List.pairwise_append, List.pairwise_cons] at hsteady
  refine ⟨hat.down_swap, hat.link_swap, rfl, ?_, ?_, ?_, ?_⟩
  · rw [highKeys_right]
    exact hw.res
  · intro a ha
    rw [lowKeys_right, List.mem_append, List.mem_append, List.mem_singleton] at ha
    obtain ha | ha | rfl := ha
    · exact hw.low a ha
    · exact (hsteady.2.2 a ha x (by simp)).2 hx.le
    · exact hx
  · rw [highKeys_right]
    exact hw.high
  · simp [hx.le]

/-- The loop ends at an equal element, or at a free place between the smaller and the greater. -/
theorem walk_spec (fuel : ℕ) (hw : Walking comp h ctx t w) (hsteady : Steady comp (keys t))
    (hfuel : (keys t).length < fuel) :
    ∃ w', walk comp h fuel w = some w' ∧
      ((∃ x ∈ keys t, w'.tmp = some x ∧ comp x = 0) ∨
        ∃ ctx', plug ctx' .nil = plug ctx t ∧ Walking comp h ctx' .nil w') := by
  induction fuel generalizing ctx t w with
  | zero => cases hfuel
  | succ fuel ih =>
    cases t with
    | nil =>
      refine ⟨w, ?_, .inr ⟨ctx, rfl, hw⟩⟩
      have htmp : w.tmp = none := hw.tmp
      simp [walk, htmp]
    | node L x R =>
      obtain ⟨x, c⟩ := x
      have htmp : w.tmp = some x := hw.tmp
      have hparts := hsteady
      rw [Steady, keys_node, List.pairwise_append, List.pairwise_cons] at hparts
      simp only [keys_node, List.length_append, List.length_cons] at hfuel
      by_cases hlt : comp x < 0
      · obtain ⟨w', hrun, hend⟩ := ih (hw.left hsteady hlt) hparts.1 (by omega)
        refine ⟨w', ?_, hend.imp_left ?_⟩
        · simp [walk, htmp, hlt, hrun]
        · rintro ⟨y, hy, hz⟩
          exact ⟨y, by simp [hy], hz⟩
      · by_cases hgt : 0 < comp x
        · obtain ⟨w', hrun, hend⟩ := ih (hw.right hsteady hgt) hparts.2.1.2 (by omega)
          refine ⟨w', ?_, hend.imp_left ?_⟩
          · simp [walk, htmp, hlt, hgt, hrun]
          · rintro ⟨y, hy, hz⟩
            exact ⟨y, by simp [hy], hz⟩
        · refine ⟨⟨some x, some x, w.res, comp x⟩, ?_, .inl ⟨x, by simp, rfl, by omega⟩⟩
          simp [walk, htmp, hlt, hgt]

/-- The way down depends on the comparisons with the elements of the tree only. -/
theorem walk_congr {comp' : α → ℤ} (fuel : ℕ) (hat : At h ctx t) (htmp : w.tmp = rootKey t)
    (heq : ∀ a ∈ keys t, comp a = comp' a) : walk comp h fuel w = walk comp' h fuel w := by
  induction fuel generalizing ctx t w with
  | zero => rfl
  | succ fuel ih =>
    cases t with
    | nil =>
      rw [rootKey_nil] at htmp
      rw [walk, walk, htmp]
    | node L x R =>
      obtain ⟨x, c⟩ := x
      have htmp : w.tmp = some x := htmp
      have hat' : At h ctx (Bin.join .left L (x, c) R) := hat
      have hl := ih (w := ⟨h.rbe .left x, some x, some x, comp x⟩) hat'.down hat'.link fun a ha =>
        heq a (by simp [ha])
      have hr := ih (w := ⟨h.rbe .right x, some x, w.res, comp x⟩) hat'.down_swap hat'.link_swap fun a ha =>
        heq a (by simp [ha])
      have hx : comp x = comp' x := heq x (by simp)
      simp only [walk, htmp]
      rw [hl, hr, hx]

theorem walkFromRoot_congr {comp' : α → ℤ} (fuel : ℕ) (hat : At h [] t)
    (heq : ∀ a ∈ keys t, comp a = comp' a) : walkFromRoot comp fuel h = walkFromRoot comp' fuel h :=
  walk_congr fuel hat hat.above heq

theorem walkFromRoot_spec (fuel : ℕ) (hat : At h [] t) (hsteady : Steady comp (keys t))
    (hfuel : (keys t).length < fuel) :
    ∃ w', walkFromRoot comp fuel h = some w' ∧
      ((∃ x ∈ keys t, w'.tmp = some x ∧ comp x = 0) ∨
        ∃ ctx, plug ctx .nil = t ∧ Walking comp h ctx .nil w') := by
  have hstart : Walking comp h [] t ⟨h.rbh_root, none, none, 0⟩ :=
    ⟨hat, hat.above, rfl, rfl, by simp [lowKeys, before], by simp [highKeys, after], by simp⟩
  exact walk_spec fuel hstart hsteady hfuel

theorem Walking.ne (hw : Walking comp h ctx .nil w) : ∀ y ∈ keys (plug ctx .nil), comp y ≠ 0 := by
  intro y hy
  simp only [keys_plug_eq, keys_nil, List.nil_append, List.mem_append] at hy
  obtain hy | hy := hy
  · exact (hw.low y hy).ne'
  · exact (hw.high y hy).ne

/-- With nothing smaller, what is above a free place comes right after it. -/
theorem parentKey_eq_head? (hlow : lowKeys ctx = []) : parentKey ctx = (highKeys ctx).head? := by
  cases ctx with
  | nil => rfl
  | cons f ctx =>
    obtain ⟨d, x, s⟩ := f
    cases d with
    | left => simp [parentKey]
    | right => simp at hlow

/-- With nothing greater, what is above a free place comes right before it. -/
theorem parentKey_eq_getLast? (hhigh : highKeys ctx = []) : parentKey ctx = (lowKeys ctx).getLast? := by
  cases ctx with
  | nil => rfl
  | cons f ctx =>
    obtain ⟨d, x, s⟩ := f
    cases d with
    | left => simp at hhigh
    | right => simp [parentKey, ← List.append_assoc]

theorem rbMin_spec (fuel : ℕ) (hat : At h [] t) (hfuel : (keys t).length < fuel) :
    rbMin fuel h = some (keys t).head? := by
  obtain ⟨w, hrun, hend⟩ := walkFromRoot_spec fuel hat (steady_const (show (-1 : ℤ) ≠ 0 by decide) _) hfuel
  obtain ⟨x, -, -, hx⟩ | ⟨ctx, rfl, hw⟩ := hend
  · cases hx
  · have hlow : lowKeys ctx = [] := List.eq_nil_iff_forall_not_mem.2 fun a ha => by
      have := hw.low a ha
      omega
    rw [keys_plug_eq, hlow]
    simp [rbMin, rbMinmax, RB_NEGINF, hrun, hw.parent, parentKey_eq_head? hlow]

theorem rbMax_spec (fuel : ℕ) (hat : At h [] t) (hfuel : (keys t).length < fuel) :
    rbMax fuel h = some (keys t).getLast? := by
  obtain ⟨w, hrun, hend⟩ := walkFromRoot_spec fuel hat (steady_const (show (1 : ℤ) ≠ 0 by decide) _) hfuel
  obtain ⟨x, -, -, hx⟩ | ⟨ctx, rfl, hw⟩ := hend
  · cases hx
  · have hhigh : highKeys ctx = [] := List.eq_nil_iff_forall_not_mem.2 fun a ha => by
      have := hw.high a ha
      omega
    rw [keys_plug_eq, hhigh]
    simp [rbMax, rbMinmax, RB_INF, hrun, hw.parent, parentKey_eq_getLast? hhigh]

variable {cmp : α → α → ℤ}

theorem rbFind_spec (hc : Comparator cmp) (fuel : ℕ) (hat : At h [] t) (hsorted : Sorted cmp (keys t))
    (hfuel : (keys t).length < fuel) (elm : α) :
    ∃ ret, rbFind cmp fuel h elm = some ret ∧ ∀ y, ret = some y ↔ y ∈ keys t ∧ cmp elm y = 0 := by
  obtain ⟨w, hrun, hend⟩ := walkFromRoot_spec fuel hat (hc.steady hsorted elm) hfuel
  refine ⟨w.tmp, by simp [rbFind, hrun], ?_⟩
  obtain ⟨x, hx, htmp, hz⟩ | ⟨ctx, rfl, hw⟩ := hend
  · rw [htmp]
    exact hsorted.equal_iff hc hx hz
  · intro y
    rw [hw.tmp]
    refine ⟨nofun, fun ⟨hy, hz⟩ => absurd hz (hw.ne y hy)⟩

theorem rbNfind_spec (hc : Comparator cmp) (fuel : ℕ) (hat : At h [] t) (hsorted : Sorted cmp (keys t))
    (hfuel : (keys t).length < fuel) (elm : α) :
    ∃ ret, rbNfind cmp fuel h elm = some ret ∧ ∀ y, ret = some y ↔
      y ∈ keys t ∧ cmp elm y ≤ 0 ∧ ∀ a ∈ keys t, cmp elm a ≤ 0 → cmp y a ≤ 0 := by
  obtain ⟨w, hrun, hend⟩ := walkFromRoot_spec fuel hat (hc.steady hsorted elm) hfuel
  refine ⟨w.tmp.or w.res, by simp [rbNfind, hrun], ?_⟩
  obtain ⟨x, hx, htmp, hz⟩ | ⟨ctx, rfl, hw⟩ := hend
  · rw [htmp, Option.some_or]
    exact hsorted.least_of_iff hc hx hz.le fun a _ ha => hc.trans x elm a (hc.eq_zero.1 hz).le ha
  · rw [hw.tmp, hw.res]
    rw [keys_plug_eq] at hsorted ⊢
    exact hsorted.head?_append_iff hc (fun a ha => (hw.low a ha).not_ge) fun a ha => (hw.high a ha).le

end Walk

section Next

theorem at_append {ctx' : Path α} : At h (ctx' ++ ctx) t ↔ At h ctx (plug ctx' t) := by
  induction ctx' generalizing t with
  | nil => rfl
  | cons f ctx' ih => exact at_cons.trans (ih.trans (by rfl))

/-- The loop ends at the last node of a tree to one side. -/
theorem farthest_spec (d : Dir) (fuel : ℕ) (ht : Holds h o t) (hx : rootKey t = some x)
    (hfuel : (keys t).length ≤ fuel) :
    ∃ ctx y c u, farthest d fuel h x = some y ∧ plug ctx (Bin.join d .nil (y, c) u) = t ∧
      ∀ f ∈ ctx, f.side = d := by
  induction fuel generalizing t x o with
  | zero =>
    have hmem := List.length_pos_of_mem (mem_of_rootKey hx)
    omega
  | succ fuel ih =>
    obtain ⟨c, A, B, rfl⟩ := exists_join hx d
    obtain ⟨-, -, hlink, -, hA, -⟩ := holds_join.1 ht
    cases hroot : rootKey A with
    | none =>
      rw [rootKey_eq_none.1 hroot] at hlink ⊢
      refine ⟨[], x, c, B, ?_, rfl, by simp⟩
      rw [rootKey_nil] at hlink
      simp [farthest, hlink]
    | some z =>
      have hlen : (keys A).length ≤ fuel := by
        have := Bin.length_join d A (x, c) B
        simp only [keys, List.length_map] at hfuel ⊢
        omega
      obtain ⟨ctx, y, c', u, hrun, heq, hside⟩ := ih hA hroot hlen
      refine ⟨ctx ++ [⟨d, (x, c), B⟩], y, c', u, ?_, ?_, ?_⟩
      · rw [hroot] at hlink
        simp [farthest, hlink, hrun]
      · rw [plug_append, heq]
        rfl
      · simpa [or_imp, forall_and] using hside

theorem ascend_spec [DecidableEq α] (d : Dir) (fuel : ℕ) (hat : At h ctx t) (hx : rootKey t = some x)
    (hfuel : ctx.length < fuel) :
    ascend d fuel h x = some ((beyond d ctx).head?.map Prod.fst) := by
  induction fuel generalizing ctx t x with
  | zero => cases hfuel
  | succ fuel ih =>
    obtain ⟨c, A, B, rfl⟩ := exists_join hx .left
    have hparent := hat.parent
    cases ctx with
    | nil =>
      rw [parentKey] at hparent
      cases d <;> simp [ascend, hparent, beyond, before, after]
    | cons f ctx =>
      obtain ⟨e, ⟨p, cp⟩, s⟩ := f
      rw [parentKey] at hparent
      have hup := at_cons.1 hat
      simp only [List.length_cons] at hfuel
      obtain rfl | rfl := Dir.eq_or_eq_swap d e
      · have hlink : h.rbe e p = some x := by rw [hup.link, rootKey_join]
        have hrec := ih hup rootKey_join (by omega)
        rw [beyond_same]
        simpa [ascend, hparent, hlink] using hrec
      · have hlink : h.rbe d p ≠ some x := by
          have hs := hup.link_swap
          rw [Dir.swap_swap] at hs
          rw [hs, ← rootKey_join (d := .left) (t := A) (x := (x, c)) (u := B)]
          exact hup.root_ne (by rintro ⟨⟩)
        rw [beyond_swap]
        simp [ascend, hparent, hlink]

theorem neighbour_spec [DecidableEq α] (d : Dir) (fuel : ℕ) (hat : At h ctx (Bin.join d L (x, c) R))
    (hfuel : (keys (plug ctx (Bin.join d L (x, c) R))).length ≤ fuel) :
    neighbour fuel d h x = some ((towardsList d L ++ beyond d ctx).head?.map Prod.fst) := by
  have hlink := hat.link
  have hparent := hat.parent
  have hlen : ctx.length + (keys L).length < fuel := by
    have h1 : _ ≤ (plug ctx (Bin.join d L (x, c) R)).toList.length := length_le_plug
    have h2 := Bin.length_join d L (x, c) R
    simp only [keys, List.length_map] at hfuel ⊢
    omega
  cases hroot : rootKey L with
  | some y =>
    obtain ⟨ctx', z, cz, u, hrun, heq, hside⟩ :=
      farthest_spec d.swap fuel (holds_join.1 hat.here).2.2.2.2.1 hroot (by omega)
    have hfirst : towardsList d L = (z, cz) :: (towardsList d u ++ beyond d ctx') := by
      rw [← heq, towardsList_plug, beyond_eq_nil hside, join_swap, towardsList_join]
      simp
    rw [hroot] at hlink
    simp [neighbour, hlink, hrun, hfirst]
  | none =>
    have hascend := ascend_spec d fuel hat rootKey_join (by omega)
    rw [rootKey_eq_none.1 hroot, towardsList_nil, List.nil_append]
    rw [hroot] at hlink
    cases ctx with
    | nil =>
      rw [parentKey] at hparent
      simpa [neighbour, hlink, hparent] using hascend
    | cons f ctx =>
      obtain ⟨e, ⟨p, cp⟩, s⟩ := f
      rw [parentKey] at hparent
      have hup := at_cons.1 hat
      obtain rfl | rfl := Dir.eq_or_eq_swap d e
      · have hother : h.rbe e.swap p ≠ some x := by
          rw [hup.link_swap, ← rootKey_join (d := e) (t := L) (x := (x, c)) (u := R)]
          exact hup.root_ne (by cases e <;> rintro ⟨⟩)
        simpa [neighbour, hlink, hparent, hother] using hascend
      · have hother : h.rbe d.swap p = some x := by rw [hup.link, rootKey_join]
        rw [beyond_swap]
        simp [neighbour, hlink, hparent, hother]

theorem exists_place (hx : x ∈ keys t) : ∃ ctx c L R, plug ctx (.node L (x, c) R) = t := by
  obtain ⟨⟨y, c⟩, hmem, rfl⟩ := List.mem_map.1 hx
  obtain ⟨ctx, L, R, heq⟩ := Bin.exists_plug hmem
  exact ⟨ctx, c, L, R, heq⟩

variable [DecidableEq α] {cmp : α → α → ℤ}

theorem rbNext_spec (hc : Comparator cmp) (fuel : ℕ) (hat : At h [] t) (hsorted : Sorted cmp (keys t))
    (hfuel : (keys t).length ≤ fuel) (hx : x ∈ keys t) :
    ∃ ret, rbNext fuel h x = some ret ∧ ∀ y, ret = some y ↔
      y ∈ keys t ∧ cmp x y < 0 ∧ ∀ a ∈ keys t, cmp x a < 0 → cmp y a ≤ 0 := by
  obtain ⟨ctx, c, L, R, rfl⟩ := exists_place hx
  refine ⟨_, neighbour_spec .right fuel (at_plug.2 hat) hfuel, ?_⟩
  have hret : (towardsList .right R ++ beyond .right ctx).head?.map Prod.fst =
      (keys R ++ highKeys ctx).head? := by
    rw [← List.head?_map, List.map_append]
    rfl
  have hlist : keys (plug ctx (.node L (x, c) R)) =
      (lowKeys ctx ++ (keys L ++ [x])) ++ (keys R ++ highKeys ctx) := by
    rw [keys_plug_eq]
    simp
  rw [hret, hlist]
  rw [hlist] at hsorted
  refine hsorted.head?_append_iff hc ?_ ?_
  · intro a ha hlt
    have hle : cmp a x ≤ 0 := by
      have hbelow := (sorted_append.1 hsorted).1
      rw [← List.append_assoc] at ha hbelow
      obtain ha | ha := List.mem_append.1 ha
      · exact ((sorted_append.1 hbelow).2.2 a ha x (by simp)).le
      · rw [List.mem_singleton.1 ha]
        exact (hc.self x).le
    have := hc.swap x a
    omega
  · exact fun a ha => (sorted_append.1 hsorted).2.2 x (by simp) a ha

theorem rbPrev_spec (hc : Comparator cmp) (fuel : ℕ) (hat : At h [] t) (hsorted : Sorted cmp (keys t))
    (hfuel : (keys t).length ≤ fuel) (hx : x ∈ keys t) :
    ∃ ret, rbPrev fuel h x = some ret ∧ ∀ y, ret = some y ↔
      y ∈ keys t ∧ cmp y x < 0 ∧ ∀ a ∈ keys t, cmp a x < 0 → cmp a y ≤ 0 := by
  obtain ⟨ctx, c, L, R, rfl⟩ := exists_place hx
  refine ⟨_, neighbour_spec .left fuel (at_plug.2 hat) hfuel, ?_⟩
  have hret : (towardsList .left L ++ beyond .left ctx).head?.map Prod.fst =
      (lowKeys ctx ++ keys L).getLast? := by
    rw [← List.head?_reverse, ← List.head?_map, List.map_append]
    simp [towardsList, beyond, lowKeys, keys]
  have hlist : keys (plug ctx (.node L (x, c) R)) =
      (lowKeys ctx ++ keys L) ++ (x :: (keys R ++ highKeys ctx)) := by
    rw [keys_plug_eq]
    simp
  rw [hret, hlist]
  rw [hlist] at hsorted
  refine hsorted.getLast?_append_iff (p := fun a => cmp a x < 0) hc ?_ ?_
  · exact fun a ha => (sorted_append.1 hsorted).2.2 a ha x (by simp)
  · intro a ha hlt
    have hle : cmp x a ≤ 0 := by
      obtain rfl | ha := List.mem_cons.1 ha
      · exact (hc.self a).le
      · exact ((sorted_cons.1 (sorted_append.1 hsorted).2.1).1 a ha).le
    have := hc.swap a x
    omega

end Next

end OpenbsdKernel.RbTree
