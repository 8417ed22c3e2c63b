import OpenbsdKernel.Lib.TreeZipper
import OpenbsdKernel.Sys.Tree.Rb

/-!
# Places in a red-black tree

The heap holds a tree that is looked at from one of its places. Every write to the heap that the
functions make is a change of the tree at such a place: a node gets a colour, is rotated, is
taken out or put in.
-/
namespace OpenbsdKernel.RbTree

open BinTree Bin

variable {α : Type*}

/-- A tree of elements with their colours. -/
abbrev Tree (α : Type*) := Bin (α × Color)

/-- The nodes above a place. -/
abbrev Path (α : Type*) := List (Frame (α × Color))

def rootKey (t : Tree α) : Option α := t.root.map Prod.fst

/-- The elements in order. -/
def keys (t : Tree α) : List α := t.toList.map Prod.fst

/-- The elements that are not below the place. -/
def pathKeys (ctx : Path α) : List α := (before ctx ++ after ctx).map Prod.fst

/-- The element above the place. -/
def parentKey : Path α → Option α
  | [] => none
  | f :: _ => some f.label.1

/-- The fields of the elements of a tree. -/
def Holds (h : Head α) (parent : Option α) : Tree α → Prop
  | .nil => True
  | .node l (a, c) r => h.rbe_parent a = parent ∧ h.rbe_color a = c ∧ h.rbe .left a = rootKey l ∧
      h.rbe .right a = rootKey r ∧ Holds h (some a) l ∧ Holds h (some a) r

/-- The fields of the elements above a place and beside it, with `r` at the place. -/
def Above (h : Head α) : Path α → Option α → Prop
  | [], r => h.rbh_root = r
  | ⟨d, (a, c), s⟩ :: ctx, r => h.rbe_parent a = parentKey ctx ∧ h.rbe_color a = c ∧ h.rbe d a = r ∧
      h.rbe d.swap a = rootKey s ∧ Holds h (some a) s ∧ Above h ctx (some a)

/-- The heap holds a tree, which is `t` at the place. -/
structure At (h : Head α) (ctx : Path α) (t : Tree α) : Prop where
  above : Above h ctx (rootKey t)
  here : Holds h (parentKey ctx) t
  nodup : (keys (plug ctx t)).Nodup

section Keys

variable {h : Head α} {d : Dir} {t u : Tree α} {x : α × Color} {a b : α} {c : Color} {ctx : Path α}
  {p : Option α}

@[simp] theorem rootKey_nil : rootKey (.nil : Tree α) = none := rfl

@[simp] theorem rootKey_join : rootKey (Bin.join d t x u) = some x.1 := by simp [rootKey]

@[simp] theorem rootKey_node : rootKey (Bin.node t x u) = some x.1 := rfl

theorem rootKey_eq_none : rootKey t = none ↔ t = .nil := by
  simp [rootKey, Bin.root_eq_none]

theorem mem_of_rootKey (ha : rootKey t = some a) : a ∈ keys t := by
  cases t with
  | nil => cases ha
  | node l x r =>
    cases ha
    simp [keys]

theorem exists_join (ha : rootKey t = some a) (d : Dir) : ∃ c u v, t = Bin.join d u (a, c) v := by
  cases t with
  | nil => cases ha
  | node l x r =>
    cases ha
    cases d with
    | left => exact ⟨x.2, l, r, rfl⟩
    | right => exact ⟨x.2, r, l, rfl⟩

@[simp] theorem keys_nil : keys (.nil : Tree α) = [] := rfl

@[simp] theorem keys_node : keys (.node t x u) = keys t ++ x.1 :: keys u := by simp [keys]

@[simp] theorem mem_keys_join : b ∈ keys (Bin.join d t x u) ↔ b ∈ keys t ∨ b = x.1 ∨ b ∈ keys u := by
  cases d with
  | left => simp [Bin.join]
  | right =>
    simp only [Bin.join, keys_node, List.mem_append, List.mem_cons]
    tauto

theorem nodup_keys_join : (keys (Bin.join d t x u)).Nodup ↔
    (keys t).Nodup ∧ (keys u).Nodup ∧ x.1 ∉ keys t ∧ x.1 ∉ keys u ∧ ∀ a ∈ keys t, a ∉ keys u := by
  cases d with
  | left =>
    simp only [Bin.join, keys_node, List.nodup_append, List.nodup_cons, List.mem_cons]
    grind
  | right =>
    simp only [Bin.join, keys_node, List.nodup_append, List.nodup_cons, List.mem_cons]
    grind

theorem keys_plug : keys (plug ctx t) =
    (before ctx).map Prod.fst ++ (keys t ++ (after ctx).map Prod.fst) := by
  simp [keys, toList_plug]

/-- The elements of the whole depend on those at the place only. -/
theorem keys_plug_congr (heq : keys t = keys u) : keys (plug ctx t) = keys (plug ctx u) := by
  rw [keys_plug, keys_plug, heq]

theorem keys_rotate (d : Dir) (A B C : Tree α) (x y : α × Color) :
    keys (Bin.join d (Bin.join d A x B) y C) = keys (Bin.join d A x (Bin.join d B y C)) := by
  rw [keys, toList_rotate, keys]

theorem keys_label (d : Dir) (c c' : Color) :
    keys (Bin.join d t (a, c) u) = keys (Bin.join d t (a, c') u) := by
  cases d <;> simp [Bin.join]

theorem mem_keys_plug : a ∈ keys (plug ctx t) ↔ a ∈ keys t ∨ a ∈ pathKeys ctx := by
  simp only [keys_plug, pathKeys, List.map_append, List.mem_append]
  tauto

theorem nodup_plug : (keys (plug ctx t)).Nodup ↔
    (keys t).Nodup ∧ (pathKeys ctx).Nodup ∧ ∀ a ∈ keys t, a ∉ pathKeys ctx := by
  simp only [keys_plug, pathKeys, List.map_append, List.nodup_append, List.mem_append]
  grind

theorem mem_pathKeys_cons {f : Frame (α × Color)} : a ∈ pathKeys (f :: ctx) ↔
    a = f.label.1 ∨ a ∈ keys f.sibling ∨ a ∈ pathKeys ctx := by
  have h1 : a ∈ keys (plug (f :: ctx) .nil) ↔ a ∈ keys .nil ∨ a ∈ pathKeys (f :: ctx) := mem_keys_plug
  rw [plug_cons, mem_keys_plug, mem_keys_join] at h1
  simp only [keys_nil, List.not_mem_nil, false_or] at h1
  rw [← h1, or_assoc]

theorem mem_of_parentKey (ha : parentKey ctx = some a) : a ∈ pathKeys ctx := by
  cases ctx with
  | nil => cases ha
  | cons f ctx =>
    cases ha
    exact mem_pathKeys_cons.2 (.inl rfl)

theorem holds_join : Holds h p (Bin.join d t (a, c) u) ↔ h.rbe_parent a = p ∧ h.rbe_color a = c ∧
    h.rbe d a = rootKey t ∧ h.rbe d.swap a = rootKey u ∧ Holds h (some a) t ∧ Holds h (some a) u := by
  cases d with
  | left => rfl
  | right =>
    simp only [Bin.join, Holds, Dir.swap]
    tauto

/-- Looking from a place and from the node above it is the same. -/
theorem at_cons {f : Frame (α × Color)} :
    At h (f :: ctx) t ↔ At h ctx (Bin.join f.side t f.label f.sibling) := by
  obtain ⟨d, ⟨a, c⟩, s⟩ := f
  constructor
  · rintro ⟨⟨h1, h2, h3, h4, h5, h6⟩, hhere, hnodup⟩
    exact ⟨by rw [rootKey_join]; exact h6, holds_join.2 ⟨h1, h2, h3, h4, hhere, h5⟩, hnodup⟩
  · rintro ⟨habove, hhere, hnodup⟩
    obtain ⟨h1, h2, h3, h4, h5, h6⟩ := holds_join.1 hhere
    rw [rootKey_join] at habove
    exact ⟨⟨h1, h2, h3, h4, h6, habove⟩, h5, hnodup⟩

theorem At.apart (hat : At h ctx t) : ∀ a ∈ keys t, a ∉ pathKeys ctx := (nodup_plug.1 hat.nodup).2.2

theorem At.nodup_here (hat : At h ctx t) : (keys t).Nodup := (nodup_plug.1 hat.nodup).1

end Keys

/-- The element has the same fields in both heaps. -/
structure Same (h h' : Head α) (a : α) : Prop where
  link : ∀ d, h'.rbe d a = h.rbe d a
  parent : h'.rbe_parent a = h.rbe_parent a
  color : h'.rbe_color a = h.rbe_color a

section Same

variable {h h' h'' : Head α} {d : Dir} {t : Tree α} {a b old : α} {c : Color} {ctx : Path α}
  {p v r o : Option α}

theorem Same.trans (h1 : Same h h' a) (h2 : Same h' h'' a) : Same h h'' a :=
  ⟨fun d => (h2.link d).trans (h1.link d), h2.parent.trans h1.parent, h2.color.trans h1.color⟩

theorem Holds.congr (ht : Holds h p t) (hsame : ∀ a ∈ keys t, Same h h' a) : Holds h' p t := by
  induction t generalizing p with
  | nil => trivial
  | node l x r ihl ihr =>
    obtain ⟨a, c⟩ := x
    obtain ⟨h1, h2, h3, h4, hl, hr⟩ := ht
    have ha := hsame a (by simp)
    refine ⟨ha.parent.trans h1, ha.color.trans h2, (ha.link _).trans h3, (ha.link _).trans h4,
      ihl hl ?_, ihr hr ?_⟩
    · exact fun b hb => hsame b (by simp [hb])
    · exact fun b hb => hsame b (by simp [hb])

theorem Above.congr (hctx : Above h ctx r) (hsame : ∀ a ∈ pathKeys ctx, Same h h' a)
    (hroot : h'.rbh_root = h.rbh_root) : Above h' ctx r := by
  induction ctx generalizing r with
  | nil => exact hroot.trans hctx
  | cons f ctx ih =>
    obtain ⟨d, ⟨a, c⟩, s⟩ := f
    obtain ⟨h1, h2, h3, h4, hs, hrest⟩ := hctx
    have ha := hsame a (mem_pathKeys_cons.2 (.inl rfl))
    refine ⟨ha.parent.trans h1, ha.color.trans h2, (ha.link _).trans h3, (ha.link _).trans h4,
      hs.congr ?_, ih hrest ?_⟩
    · exact fun b hb => hsame b (mem_pathKeys_cons.2 (.inr (.inl hb)))
    · exact fun b hb => hsame b (mem_pathKeys_cons.2 (.inr (.inr hb)))

variable [DecidableEq α]

theorem same_setLink (hne : a ≠ b) : Same h (h.setLink d b v) a :=
  ⟨fun _ => if_neg fun he => hne he.2, rfl, rfl⟩

theorem same_setParent (hne : a ≠ b) : Same h (h.setParent b v) a := ⟨fun _ => rfl, if_neg hne, rfl⟩

theorem same_setColor (hne : a ≠ b) : Same h (h.setColor b c) a := ⟨fun _ => rfl, rfl, if_neg hne⟩

theorem same_setParentOf (hne : o ≠ some a) : Same h (h.setParentOf o v) a := by
  cases o with
  | none => exact ⟨fun _ => rfl, rfl, rfl⟩
  | some b => exact same_setParent fun he => hne (he ▸ rfl)

theorem same_replaceChild (hne : p ≠ some a) : Same h (h.replaceChild p old v) a := by
  cases p with
  | none => exact ⟨fun _ => rfl, rfl, rfl⟩
  | some b =>
    have hab : a ≠ b := fun he => hne (he ▸ rfl)
    rw [Head.replaceChild]
    split
    · exact same_setLink hab
    · exact same_setLink hab

theorem setParentOf_root (h : Head α) : (h.setParentOf o v).rbh_root = h.rbh_root := by
  cases o <;> rfl

/-- A tree with another parent. -/
theorem Holds.setParentOf (ht : Holds h p t) (hnodup : (keys t).Nodup) :
    Holds (h.setParentOf (rootKey t) v) v t := by
  cases t with
  | nil => trivial
  | node l x r =>
    obtain ⟨a, c⟩ := x
    obtain ⟨-, h2, h3, h4, hl, hr⟩ := ht
    obtain ⟨-, -, hal, har, -⟩ := (nodup_keys_join (d := .left)).1 hnodup
    refine ⟨if_pos rfl, h2, h3, h4, hl.congr fun b hb => same_setParent ?_,
      hr.congr fun b hb => same_setParent ?_⟩
    · rintro rfl
      exact hal hb
    · rintro rfl
      exact har hb

/-- The link to a place is written. -/
theorem Above.setLink {s : Tree α} (hctx : Above h (⟨d, (a, c), s⟩ :: ctx) r)
    (hnodup : (keys (plug (⟨d, (a, c), s⟩ :: ctx) .nil)).Nodup) :
    Above (h.setLink d a v) (⟨d, (a, c), s⟩ :: ctx) v := by
  obtain ⟨h1, h2, h3, h4, hs, hrest⟩ := hctx
  obtain ⟨hnodup, -, hapart⟩ := nodup_plug.1 (show (keys (plug ctx _)).Nodup from hnodup)
  obtain ⟨-, -, -, has, -⟩ := nodup_keys_join.1 hnodup
  have hnot := hapart a (by simp)
  refine ⟨h1, h2, if_pos ⟨rfl, rfl⟩, ?_, hs.congr ?_, hrest.congr ?_ rfl⟩
  · rw [← h4]
    exact if_neg fun he => Dir.swap_ne d he.1
  · intro b hb
    refine same_setLink ?_
    rintro rfl
    exact has hb
  · intro b hb
    refine same_setLink ?_
    rintro rfl
    exact hnot hb

/-- What is above a place points to something else. -/
theorem Above.replaceChild (hctx : Above h ctx (some old)) (hnodup : (keys (plug ctx .nil)).Nodup)
    (hold : old ∉ pathKeys ctx) : Above (h.replaceChild (parentKey ctx) old v) ctx v := by
  cases ctx with
  | nil => rfl
  | cons f ctx =>
    obtain ⟨d, ⟨a, c⟩, s⟩ := f
    simp only [mem_pathKeys_cons, not_or] at hold
    have hheap : h.replaceChild (some a) old v = h.setLink d a v := by
      rw [Head.replaceChild]
      cases d with
      | left => exact if_pos hctx.2.2.1
      | right =>
        refine if_neg fun heq => hold.2.1 (mem_of_rootKey ?_)
        rw [← hctx.2.2.2.1, ← heq]
        rfl
    rw [parentKey, hheap]
    exact hctx.setLink hnodup

end Same

end OpenbsdKernel.RbTree
