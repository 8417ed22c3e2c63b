import OpenbsdKernel.Lib.BinTree

/-!
# Trees with a hole

A place in a tree is the list of the nodes above it, each with the side it was left at and what
hangs at its other side.
-/
namespace OpenbsdKernel.BinTree

/-- One node above a hole. -/
structure Frame (β : Type*) where
  side : Dir
  label : β
  sibling : Bin β

namespace Bin

variable {β : Type*} {ctx ctx' : List (Frame β)} {t u : Bin β} {f : Frame β}

/-- The tree with the hole filled. -/
def plug : List (Frame β) → Bin β → Bin β
  | [], t => t
  | f :: ctx, t => plug ctx (join f.side t f.label f.sibling)

/-- What lies to the left of the hole. -/
def before : List (Frame β) → List β
  | [] => []
  | ⟨.left, _, _⟩ :: ctx => before ctx
  | ⟨.right, x, s⟩ :: ctx => before ctx ++ (s.toList ++ [x])

/-- What lies to the right of the hole. -/
def after : List (Frame β) → List β
  | [] => []
  | ⟨.left, x, s⟩ :: ctx => x :: s.toList ++ after ctx
  | ⟨.right, _, _⟩ :: ctx => after ctx

@[simp] theorem plug_nil : plug [] t = t := rfl

theorem plug_cons : plug (f :: ctx) t = plug ctx (join f.side t f.label f.sibling) := rfl

theorem plug_append : plug (ctx ++ ctx') t = plug ctx' (plug ctx t) := by
  induction ctx generalizing t with
  | nil => rfl
  | cons f ctx ih => exact ih

theorem plug_ne_nil (ht : t ≠ nil) : plug ctx t ≠ nil := by
  induction ctx generalizing t with
  | nil => exact ht
  | cons f ctx ih =>
    obtain ⟨d, x, s⟩ := f
    exact ih (by cases d <;> nofun)

theorem toList_plug : (plug ctx t).toList = before ctx ++ (t.toList ++ after ctx) := by
  induction ctx generalizing t with
  | nil => simp [before, after]
  | cons f ctx ih =>
    obtain ⟨d, x, s⟩ := f
    rw [plug_cons, ih]
    cases d with
    | left => simp [join, before, after]
    | right => simp [join, before, after]

theorem length_le_plug : ctx.length + t.toList.length ≤ (plug ctx t).toList.length := by
  induction ctx generalizing t with
  | nil => simp
  | cons f ctx ih =>
    have hjoin := length_join f.side t f.label f.sibling
    have hrest := @ih (join f.side t f.label f.sibling)
    rw [plug_cons, List.length_cons]
    omega

theorem exists_plug {x : β} (hx : x ∈ t.toList) : ∃ ctx l r, plug ctx (node l x r) = t := by
  induction t with
  | nil => cases hx
  | node l y r ihl ihr =>
    obtain hl | hx := List.mem_append.1 hx
    · obtain ⟨ctx, l', r', heq⟩ := ihl hl
      exact ⟨ctx ++ [⟨.left, y, r⟩], l', r', by rw [plug_append, heq]; rfl⟩
    · obtain rfl | hr := List.mem_cons.1 hx
      · exact ⟨[], l, r, rfl⟩
      · obtain ⟨ctx, l', r', heq⟩ := ihr hr
        exact ⟨ctx ++ [⟨.right, y, l⟩], l', r', by rw [plug_append, heq]; rfl⟩

/-- The labels in the order of going to side `d`. -/
def towardsList (d : Dir) (t : Bin β) : List β :=
  match d with
  | .left => t.toList.reverse
  | .right => t.toList

/-- What lies beyond the hole in that order. -/
def beyond (d : Dir) (ctx : List (Frame β)) : List β :=
  match d with
  | .left => (before ctx).reverse
  | .right => after ctx

@[simp] theorem towardsList_nil (d : Dir) : towardsList d (nil : Bin β) = [] := by
  cases d <;> rfl

theorem towardsList_join (d : Dir) (t : Bin β) (x : β) (u : Bin β) :
    towardsList d (join d t x u) = towardsList d u ++ x :: towardsList d t := by
  cases d <;> simp [towardsList, join]

theorem beyond_same (d : Dir) (x : β) (s : Bin β) : beyond d (⟨d, x, s⟩ :: ctx) = beyond d ctx := by
  cases d <;> simp [beyond, before, after]

theorem beyond_swap (d : Dir) (x : β) (s : Bin β) :
    beyond d (⟨d.swap, x, s⟩ :: ctx) = x :: (towardsList d s ++ beyond d ctx) := by
  cases d <;> simp [beyond, before, after, towardsList, Dir.swap]

theorem towardsList_plug (d : Dir) :
    towardsList d (plug ctx t) = (beyond d.swap ctx).reverse ++ (towardsList d t ++ beyond d ctx) := by
  cases d <;> simp [towardsList, beyond, toList_plug, Dir.swap]

theorem beyond_eq_nil {d : Dir} (hside : ∀ f ∈ ctx, f.side = d) : beyond d ctx = [] := by
  induction ctx with
  | nil => cases d <;> rfl
  | cons f ctx ih =>
    obtain ⟨e, x, s⟩ := f
    obtain rfl : e = d := hside _ (List.mem_cons_self ..)
    rw [beyond_same]
    exact ih fun g hg => hside g (List.mem_cons_of_mem _ hg)

end Bin

end OpenbsdKernel.BinTree
