import OpenbsdKernel.Sys.Tree.RbRemoveColor
import OpenbsdKernel.Sys.Tree.RbSearch

/-!
# Red-black trees hold what was put in

Every insertion and removal keeps a red-black search tree of the elements that were inserted and
not removed, whatever the operations and their order are.
-/
namespace OpenbsdKernel.RbTree

open BinTree Bin

variable {α : Type*} {cmp : α → α → ℤ} {h : Head α} {ctx : Path α} {d : Dir} {t u L R : Tree α}
  {x y elm : α} {c cy : Color} {fuel : ℕ}

/-- The heap holds a red-black search tree. -/
structure IsTree (cmp : α → α → ℤ) (h : Head α) (t : Tree α) : Prop extends At h [] t where
  sorted : Sorted cmp (keys t)
  redBlack : RedBlack t

theorem length_path_le (ctx : Path α) (t : Tree α) :
    ctx.length + (keys t).length ≤ (keys (plug ctx t)).length := by
  simpa [keys] using @length_le_plug _ ctx t

theorem fits_key (hfits : Fits ctx (Bin.join d L (x, c) R)) : Fits ctx (Bin.join d L (y, c) R) := by
  obtain ⟨n, haround, hbal, hcol⟩ := hfits
  rw [rootColor_join] at hcol
  refine ⟨n, haround, ?_, by rwa [rootColor_join]⟩
  cases c with
  | black => exact balanced_black.2 (balanced_black.1 hbal)
  | red => exact balanced_red.2 (balanced_red.1 hbal)

theorem augmentAbove_spec (fuel : ℕ) (hat : At h ctx t) (hfuel : ctx.length < fuel) :
    augmentAbove fuel h (parentKey ctx) = some () := by
  induction fuel generalizing ctx t with
  | zero => cases hfuel
  | succ fuel ih =>
    cases ctx with
    | nil => rfl
    | cons f ctx =>
      obtain ⟨e, ⟨p, cp⟩, s⟩ := f
      have hup := at_cons.1 hat
      have hparent : h.rbe_parent p = parentKey ctx := hup.parent
      simp only [List.length_cons] at hfuel
      rw [parentKey, augmentAbove, hparent]
      exact ih hup (by omega)

variable [DecidableEq α]

theorem rbInsert_spec (hc : Comparator cmp) (ht : IsTree cmp h t) (hfuel : (keys t).length < fuel)
    (elm : α) :
    (∃ y ∈ keys t, cmp elm y = 0 ∧ rbInsert cmp fuel h elm = some (h, some y)) ∨
      ∃ h' t' l r, rbInsert cmp fuel h elm = some (h', none) ∧ IsTree cmp h' t' ∧
        (∀ y ∈ keys t, cmp elm y ≠ 0) ∧ keys t = l ++ r ∧ keys t' = l ++ elm :: r := by
  obtain ⟨w, hrun, hend⟩ := walkFromRoot_spec fuel ht.toAt (hc.steady ht.sorted elm) hfuel
  obtain ⟨y, hy, htmp, hz⟩ | ⟨ctx, heq, hw⟩ := hend
  · exact .inl ⟨y, hy, hz, by simp [rbInsert, hrun, htmp]⟩
  · have hne := hw.ne
    have hkeys : keys t = lowKeys ctx ++ highKeys ctx := by
      rw [← heq, keys_plug_eq]
      simp
    have hnew : elm ∉ pathKeys ctx := by
      intro hmem
      refine hne elm ?_ (hc.self elm)
      rw [mem_keys_plug]
      exact .inr hmem
    have hat := hw.toAt.attach hnew hw.side
    have hfits : Fits ctx (.nil : Tree α) := redBlack_plug.1 (heq ▸ ht.redBlack)
    obtain ⟨n, haround, hbal, -⟩ := hfits
    obtain rfl := balanced_nil.1 hbal
    have hclimb : Climbing _ ctx (.node .nil (elm, .red) .nil) elm 0 :=
      ⟨hat, rfl, rfl, (balanced_red (d := .left)).2 ⟨rfl, rfl, hbal, hbal⟩, haround⟩
    have hlen : ctx.length < fuel := by
      have h1 := length_path_le ctx .nil
      rw [heq] at h1
      omega
    obtain ⟨h', t', hcolor, hat', hrb, hkeys'⟩ := rbInsertColor_spec fuel hclimb hlen
    have hlist : keys t' = lowKeys ctx ++ elm :: highKeys ctx := by
      rw [hkeys', keys_plug_eq]
      simp
    refine .inr ⟨h', t', _, _, ?_, ⟨hat', ?_, hrb⟩, heq ▸ hne, hkeys, hlist⟩
    · have htmp : w.tmp = none := hw.tmp
      have hparent := hw.parent
      simp [rbInsert, hrun, htmp, hparent, hcolor]
    · rw [hlist]
      have hsorted := ht.sorted
      rw [hkeys] at hsorted
      exact hsorted.insert hc hw.low hw.high

theorem removeColored_spec (hat : At h ctx u) (hfits : Fits ctx (Bin.join d .nil (y, c) u))
    (hfuel : ctx.length < fuel) :
    ∃ h' t', removeColored fuel h c (parentKey ctx) (rootKey u) = some h' ∧ At h' [] t' ∧ RedBlack t' ∧
      keys t' = keys (plug ctx u) := by
  obtain ⟨n, haround, hbal, hcol⟩ := hfits
  cases c with
  | black =>
    obtain ⟨m, rfl, -, hu⟩ := balanced_black.1 hbal
    exact rbRemoveColor_spec fuel hat haround (Lacks.of_balanced hu) (.inr hfuel) (by omega)
  | red =>
    obtain ⟨-, huc, -, hu⟩ := balanced_red.1 hbal
    exact ⟨h, _, rfl, at_plug.1 hat, redBlack_plug.2 ⟨n, haround, hu, fun _ => huc⟩, rfl⟩

/-- What a removal leaves. -/
structure Removed (h' : Head α) (t : Tree α) (x : α) (t' : Tree α) : Prop extends At h' [] t' where
  redBlack : RedBlack t'
  split : ∃ l r, keys t = l ++ x :: r ∧ keys t' = l ++ r

theorem removeInner_spec (hat : At h ctx (.node L (x, c) R)) (hrb : RedBlack (plug ctx (.node L (x, c) R)))
    {ctx' : Path α} (heq : plug ctx' (Bin.join .left .nil (y, cy) u) = R) (hL : L ≠ .nil)
    (hside : ∀ f ∈ ctx', f.side = .left) (hfuel : (keys (plug ctx (.node L (x, c) R))).length ≤ fuel) :
    ∃ h' t', removeInner fuel h x y = some h' ∧ Removed h' (plug ctx (.node L (x, c) R)) x t' := by
  have hxR : x ∉ keys R := ((nodup_keys_join (d := .left)).1 hat.nodup_here).2.2.2.1
  have hxctx : parentKey ctx ≠ some x := fun hp => hat.apart x (by simp) (mem_of_parentKey hp)
  -- the next node is taken out
  have hnode : At h (ctx' ++ ⟨.right, (x, c), L⟩ :: ctx) (Bin.join .left .nil (y, cy) u) :=
    at_append.2 (heq ▸ at_cons.2 hat)
  obtain ⟨hat₁, hsame⟩ := hnode.splice
  have hat₂ : At (h.splice y (rootKey u)) ctx (.node L (x, c) (plug ctx' u)) :=
    at_cons.1 (at_append.1 hat₁)
  have hy : y ∉ keys (plug ctx (.node L (x, c) (plug ctx' u))) := by
    have hplug : plug ctx (.node L (x, c) (plug ctx' u)) =
        plug (ctx' ++ ⟨.right, (x, c), L⟩ :: ctx) u := by
      rw [plug_append]
      rfl
    rw [hplug, mem_keys_plug, not_or]
    exact ⟨(nodup_keys_join.1 hnode.nodup_here).2.2.2.1, hnode.apart y (by simp)⟩
  have hyx : x ≠ y := by
    rintro rfl
    exact hy (mem_keys_plug.2 (.inl (by simp)))
  -- and takes the place of the removed one
  have hat₃ := hat₂.rename hy
  have hat₄ := at_append.2 (at_cons (f := ⟨.right, (y, c), L⟩).2 hat₃)
  have hfits : Fits (ctx' ++ ⟨.right, (y, c), L⟩ :: ctx) (Bin.join .left .nil (y, cy) u) := by
    rw [fits_plug, heq]
    exact fits_cons.2 (fits_key (d := .left) (redBlack_plug.1 hrb))
  have hlen : (ctx' ++ ⟨.right, (y, c), L⟩ :: ctx).length < fuel := by
    have h1 := length_path_le (ctx' ++ ⟨.right, (x, c), L⟩ :: ctx) (Bin.join .left .nil (y, cy) u)
    rw [plug_append, heq] at h1
    simp only [List.length_append, List.length_cons, Bin.join, keys_node] at h1 ⊢
    have h2 : plug (⟨.right, (x, c), L⟩ :: ctx) R = plug ctx (.node L (x, c) R) := rfl
    rw [h2] at h1
    omega
  obtain ⟨h', t', hrun, hat', hrb', hkeys⟩ := removeColored_spec hat₄ hfits hlen
  refine ⟨h', t', ?_, hat', hrb', lowKeys ctx ++ keys L, keys R ++ highKeys ctx, ?_, ?_⟩
  · have hchild : h.rbe .right y = rootKey u := hnode.link_swap
    have hcolor : h.rbe_color y = cy := hnode.color
    have hparent : (if (h.splice y (rootKey u)).rbe_parent y = some x then some y else h.rbe_parent y) =
        parentKey (ctx' ++ ⟨.right, (y, c), L⟩ :: ctx) := by
      rw [hsame.parent, hnode.parent]
      cases ctx' with
      | nil => exact if_pos rfl
      | cons f ctx' =>
        refine if_neg fun heqx => hxR ?_
        rw [← heq, mem_keys_plug]
        exact .inr (mem_of_parentKey heqx)
    obtain ⟨l, hl⟩ := Option.ne_none_iff_exists'.1 fun hn => hL (rootKey_eq_none.1 hn)
    have haugment := augmentAbove_spec fuel hat₄ hlen
    rw [hl, Head.setParentOf] at haugment hrun
    have hcopy : Same (h.splice y (rootKey u)) ((h.splice y (rootKey u)).copy y x) x := same_copy hyx
    have hup : ((h.splice y (rootKey u)).copy y x).rbe_parent x = parentKey ctx :=
      hcopy.parent.trans hat₂.here.1
    set h₃ := ((h.splice y (rootKey u)).copy y x).replaceChild (parentKey ctx) x (some y)
    have hafter : Same (h.splice y (rootKey u)) h₃ x := hcopy.trans (same_replaceChild hxctx)
    have hright : (h₃.setParent l (some y)).rbe .right x = rootKey (plug ctx' u) :=
      (hafter.link .right).trans hat₂.here.2.2.2.1
    rw [removeInner]
    simp only [hchild, hcolor, hparent, hup]
    rw [hafter.link, hat₂.here.2.2.1, hl, Option.bind_some, hright, haugment, Option.bind_some]
    exact hrun
  · rw [keys_plug_eq]
    simp
  · have hlow : lowKeys ctx' = [] := by
      have := beyond_eq_nil hside
      rw [beyond, List.reverse_eq_nil_iff] at this
      rw [lowKeys, this, List.map_nil]
    rw [hkeys, plug_append, plug_cons, keys_plug_eq, ← heq]
    simp only [Bin.join, keys_node, keys_plug_eq, hlow, keys_nil]
    simp

theorem rbRemove_spec (hat : At h [] t) (hrb : RedBlack t) (hx : x ∈ keys t)
    (hfuel : (keys t).length ≤ fuel) :
    ∃ h' t', rbRemove fuel h x = some (h', x) ∧ Removed h' t x t' := by
  obtain ⟨ctx, c, L, R, rfl⟩ := exists_place hx
  have hplace := at_plug.2 hat
  have hlen : ctx.length < fuel := by
    have h1 := length_path_le ctx (.node L (x, c) R)
    simp only [keys_node, List.length_append, List.length_cons] at h1
    omega
  have hfits := redBlack_plug.1 hrb
  have hleft : h.rbe .left x = rootKey L := hplace.here.2.2.1
  have hright : h.rbe .right x = rootKey R := hplace.here.2.2.2.1
  have hcolor : h.rbe_color x = c := hplace.here.2.1
  have hparent : h.rbe_parent x = parentKey ctx := hplace.here.1
  cases hLr : rootKey L with
  | none =>
    obtain rfl := rootKey_eq_none.1 hLr
    have hsplice := (At.splice (d := .left) hplace).1
    obtain ⟨h', t', hrun, hat', hrb', hkeys⟩ := removeColored_spec (d := .left) hsplice hfits hlen
    refine ⟨h', t', ?_, hat', hrb', lowKeys ctx, keys R ++ highKeys ctx, ?_, ?_⟩
    · simp [rbRemove, hleft, hright, hcolor, hparent, hrun]
    · rw [keys_plug_eq]
      simp
    · rw [hkeys, keys_plug_eq]
  | some l =>
    cases hRr : rootKey R with
    | none =>
      obtain rfl := rootKey_eq_none.1 hRr
      have hsplice := (At.splice (d := .right) hplace).1
      obtain ⟨h', t', hrun, hat', hrb', hkeys⟩ := removeColored_spec (d := .right) hsplice hfits hlen
      refine ⟨h', t', ?_, hat', hrb', lowKeys ctx ++ keys L, highKeys ctx, ?_, ?_⟩
      · simp [rbRemove, hleft, hright, hLr, hcolor, hparent, ← hrun]
      · rw [keys_plug_eq]
        simp
      · rw [hkeys, keys_plug_eq]
        simp
    | some r =>
      have hR : (keys R).length ≤ fuel := by
        have h1 := length_path_le ctx (.node L (x, c) R)
        simp only [keys_node, List.length_append, List.length_cons] at h1
        omega
      obtain ⟨ctx', y, cy, u, hfar, heq, hside⟩ :=
        farthest_spec .left fuel hplace.here.2.2.2.2.2 hRr hR
      have hL : L ≠ .nil := by
        rintro rfl
        cases hLr
      obtain ⟨h', t', hrun, hremoved⟩ := removeInner_spec hplace hrb heq hL hside hfuel
      refine ⟨h', t', ?_, hremoved⟩
      simp [rbRemove, hleft, hright, hLr, hRr, hfar, hrun]

inductive Op (α : Type*)
  | insert (elm : α)
  | remove (elm : α)
  deriving DecidableEq, Repr

section Runs

/-- What is in the tree after the operation. -/
def Op.contents (cmp : α → α → ℤ) (S : Set α) : Op α → Set α
  | .insert elm => {a | a ∈ S ∨ a = elm ∧ ∀ y ∈ S, cmp elm y ≠ 0}
  | .remove elm => {a | a ∈ S ∧ a ≠ elm}

/-- Only elements that are in the tree are removed. -/
def Op.Allowed (S : Set α) : Op α → Prop
  | .insert _ => True
  | .remove elm => elm ∈ S

def Op.Returns (cmp : α → α → ℤ) (S : Set α) (ret : Option α) : Op α → Prop
  | .insert elm => ∀ y, ret = some y ↔ y ∈ S ∧ cmp elm y = 0
  | .remove elm => ret = some elm

def Allowed (cmp : α → α → ℤ) : Set α → List (Op α) → Prop
  | _, [] => True
  | S, op :: ops => op.Allowed S ∧ Allowed cmp (op.contents cmp S) ops

/-- What a run has to return, from the contents `S` on. -/
def Returned (cmp : α → α → ℤ) : Set α → List (Op α) → List (Option α) → Prop
  | _, [], [] => True
  | S, op :: ops, ret :: rets => op.Returns cmp S ret ∧ Returned cmp (op.contents cmp S) ops rets
  | _, _, _ => False

def Op.exec (cmp : α → α → ℤ) (fuel : ℕ) (h : Head α) : Op α → Option (Head α × Option α)
  | .insert elm => rbInsert cmp fuel h elm
  | .remove elm => (rbRemove fuel h elm).map fun (h, ret) => (h, some ret)

def run (cmp : α → α → ℤ) (fuel : ℕ) : Head α → List (Op α) → Option (Head α × List (Option α))
  | h, [] => some (h, [])
  | h, op :: ops =>
    (op.exec cmp fuel h).bind fun (h, ret) => (run cmp fuel h ops).map fun (h, rets) => (h, ret :: rets)

/-- The searches find what they look for among the elements `S`, and an equal element makes an
insertion change nothing. -/
structure Answers (cmp : α → α → ℤ) (fuel : ℕ) (h : Head α) (S : Set α) : Prop where
  insert : ∀ elm, ∀ y ∈ S, cmp elm y = 0 → rbInsert cmp fuel h elm = some (h, some y)
  find : ∀ elm, ∃ ret, rbFind cmp fuel h elm = some ret ∧ ∀ y, ret = some y ↔ y ∈ S ∧ cmp elm y = 0
  nfind : ∀ elm, ∃ ret, rbNfind cmp fuel h elm = some ret ∧ ∀ y, ret = some y ↔
    y ∈ S ∧ cmp elm y ≤ 0 ∧ ∀ a ∈ S, cmp elm a ≤ 0 → cmp y a ≤ 0
  min : ∃ ret, rbMin fuel h = some ret ∧ ∀ y, ret = some y ↔ y ∈ S ∧ ∀ a ∈ S, cmp y a ≤ 0
  max : ∃ ret, rbMax fuel h = some ret ∧ ∀ y, ret = some y ↔ y ∈ S ∧ ∀ a ∈ S, cmp a y ≤ 0
  next : ∀ x ∈ S, ∃ ret, rbNext fuel h x = some ret ∧ ∀ y, ret = some y ↔
    y ∈ S ∧ cmp x y < 0 ∧ ∀ a ∈ S, cmp x a < 0 → cmp y a ≤ 0
  prev : ∀ x ∈ S, ∃ ret, rbPrev fuel h x = some ret ∧ ∀ y, ret = some y ↔
    y ∈ S ∧ cmp y x < 0 ∧ ∀ a ∈ S, cmp a x < 0 → cmp a y ≤ 0

theorem IsTree.answers (hc : Comparator cmp) (ht : IsTree cmp h t) (hfuel : (keys t).length < fuel) :
    Answers cmp fuel h {a | a ∈ keys t} where
  insert elm y hy hz := by
    obtain ⟨z, hmem, hzero, hrun⟩ | ⟨-, -, -, -, -, -, hne, -⟩ := rbInsert_spec hc ht hfuel elm
    · rw [hrun, (ht.sorted.equal_iff hc hmem hzero y).2 ⟨hy, hz⟩]
    · exact absurd hz (hne y hy)
  find := rbFind_spec hc fuel ht.toAt ht.sorted hfuel
  nfind := rbNfind_spec hc fuel ht.toAt ht.sorted hfuel
  min := ⟨_, rbMin_spec fuel ht.toAt hfuel, ht.sorted.head?_iff hc⟩
  max := ⟨_, rbMax_spec fuel ht.toAt hfuel, ht.sorted.getLast?_iff hc⟩
  next _ hx := rbNext_spec hc fuel ht.toAt ht.sorted hfuel.le hx
  prev _ hx := rbPrev_spec hc fuel ht.toAt ht.sorted hfuel.le hx

theorem Op.exec_spec (hc : Comparator cmp) (ht : IsTree cmp h t) (hfuel : (keys t).length < fuel)
    {op : Op α} (hop : op.Allowed {a | a ∈ keys t}) :
    ∃ h' t' ret, op.exec cmp fuel h = some (h', ret) ∧ IsTree cmp h' t' ∧
      (keys t').length ≤ (keys t).length + 1 ∧
      {a | a ∈ keys t'} = op.contents cmp {a | a ∈ keys t} ∧ op.Returns cmp {a | a ∈ keys t} ret := by
  cases op with
  | insert elm =>
    obtain ⟨y, hy, hz, hrun⟩ | ⟨h', t', l, r, hrun, ht', hne, hkeys, hkeys'⟩ := rbInsert_spec hc ht hfuel elm
    · refine ⟨h, t, some y, hrun, ht, Nat.le_succ _, Set.ext fun a => ?_, ht.sorted.equal_iff hc hy hz⟩
      exact ⟨.inl, fun ha => ha.resolve_right fun ha => ha.2 y hy hz⟩
    · refine ⟨h', t', none, hrun, ht', ?_, Set.ext fun a => ?_, fun y => ?_⟩
      · simp [hkeys, hkeys']
        omega
      · simp only [contents, Set.mem_ofPred_eq, hkeys', hkeys, List.mem_append, List.mem_cons]
        have hfresh : ∀ y, y ∈ l ∨ y ∈ r → cmp elm y ≠ 0 := by
          intro y hy
          exact hne y (by rw [hkeys]; exact List.mem_append.2 hy)
        constructor
        · rintro (ha | rfl | ha)
          · exact .inl (.inl ha)
          · exact .inr ⟨rfl, hfresh⟩
          · exact .inl (.inr ha)
        · rintro ((ha | ha) | ⟨rfl, -⟩)
          · exact .inl ha
          · exact .inr (.inr ha)
          · exact .inr (.inl rfl)
      · exact ⟨nofun, fun ⟨hy, hz⟩ => absurd hz (hne y hy)⟩
  | remove elm =>
    obtain ⟨h', t', hrun, hr⟩ := rbRemove_spec ht.toAt ht.redBlack hop hfuel.le
    obtain ⟨l, r, hkeys, hkeys'⟩ := hr.split
    have hnodup := ht.sorted.nodup hc
    rw [hkeys, List.nodup_append, List.nodup_cons] at hnodup
    refine ⟨h', t', some elm, by simp [exec, hrun], ⟨hr.toAt, ?_, hr.redBlack⟩, ?_, Set.ext fun a => ?_, rfl⟩
    · have hsorted := ht.sorted
      rw [hkeys] at hsorted
      rw [hkeys']
      exact hsorted.sublist ((List.sublist_cons_self elm r).append_left l)
    · simp [hkeys, hkeys']
      omega
    · simp only [contents, Set.mem_ofPred_eq, hkeys', hkeys, List.mem_append, List.mem_cons]
      constructor
      · rintro (ha | ha)
        · exact ⟨.inl ha, hnodup.2.2 a ha elm (by simp)⟩
        · refine ⟨.inr (.inr ha), ?_⟩
          rintro rfl
          exact hnodup.2.1.1 ha
      · rintro ⟨ha | rfl | ha, hne⟩
        · exact .inl ha
        · exact absurd rfl hne
        · exact .inr ha

theorem run_isTree (hc : Comparator cmp) (ops : List (Op α)) (ht : IsTree cmp h t)
    (hops : Allowed cmp {a | a ∈ keys t} ops) (hfuel : (keys t).length + ops.length < fuel) :
    ∃ h' t' rets, run cmp fuel h ops = some (h', rets) ∧ IsTree cmp h' t' ∧ (keys t').length < fuel ∧
      {a | a ∈ keys t'} = ops.foldl (Op.contents cmp) {a | a ∈ keys t} ∧
      Returned cmp {a | a ∈ keys t} ops rets := by
  induction ops generalizing h t with
  | nil => exact ⟨h, t, [], rfl, ht, hfuel, rfl, trivial⟩
  | cons op ops ih =>
    obtain ⟨hop, hops⟩ := hops
    rw [List.length_cons] at hfuel
    have hroom : (keys t).length < fuel := by omega
    obtain ⟨h₁, t₁, ret, hexec, ht₁, hlen, hmem, hret⟩ := Op.exec_spec hc ht hroom hop
    rw [← hmem] at hops
    obtain ⟨h₂, t₂, rets, hrun, ht₂, hlen₂, hmem₂, hrets⟩ := ih ht₁ hops (by omega)
    rw [hmem] at hmem₂ hrets
    refine ⟨h₂, t₂, ret :: rets, ?_, ht₂, hlen₂, hmem₂, hret, hrets⟩
    simp [run, hexec, hrun]

/-- Whatever elements are inserted and removed in whatever order, none of the functions fails to
end or follows a `NULL` pointer; the links are those of a red-black search tree of what was
inserted and not removed, and every insertion, removal and search returns what it has to. -/
theorem rb_run (hc : Comparator cmp) (rbe : Dir → α → Option α) (rbe_parent : α → Option α)
    (rbe_color : α → Color) (ops : List (Op α)) (hops : Allowed cmp ∅ ops) (fuel : ℕ)
    (hfuel : ops.length < fuel) :
    ∃ h t rets, run cmp fuel (rbInit rbe rbe_parent rbe_color) ops = some (h, rets) ∧
      IsTree cmp h t ∧ {a | a ∈ keys t} = ops.foldl (Op.contents cmp) ∅ ∧ Returned cmp ∅ ops rets ∧
      Answers cmp fuel h {a | a ∈ keys t} := by
  have hinit : IsTree cmp (rbInit rbe rbe_parent rbe_color) .nil :=
    ⟨⟨rfl, trivial, List.nodup_nil⟩, List.Pairwise.nil, rfl, 0, balanced_nil.2 rfl⟩
  have hempty : {a | a ∈ keys (.nil : Tree α)} = ∅ := by simp
  obtain ⟨h, t, rets, hrun, ht, hlen, hmem, hrets⟩ :=
    run_isTree hc ops hinit (hempty ▸ hops) (by simpa using hfuel)
  rw [hempty] at hmem hrets
  exact ⟨h, t, rets, hrun, ht, hmem, hrets, ht.answers hc hlen⟩

end Runs

theorem rb_run_three :
    ∃ h t rets, run (fun a b : ℤ => a - b) 4 (rbInit (fun _ _ => some 7) (fun _ => some 9) fun _ => .red)
        [.insert 5, .insert 3, .remove 5] = some (h, rets) ∧
      IsTree (fun a b : ℤ => a - b) h t ∧
      {a | a ∈ keys t} = [Op.insert 5, .insert 3, .remove 5].foldl (Op.contents fun a b : ℤ => a - b) ∅ ∧
      Returned (fun a b : ℤ => a - b) ∅ [.insert 5, .insert 3, .remove 5] rets ∧
      Answers (fun a b : ℤ => a - b) 4 h {a | a ∈ keys t} :=
  rb_run Comparator.sub _ _ _ _ (by simp [Allowed, Op.Allowed, Op.contents]) 4 (by decide)

end OpenbsdKernel.RbTree
