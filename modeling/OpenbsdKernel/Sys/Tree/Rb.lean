import OpenbsdKernel.Lib.BinTree

/-!
# Red-black trees

The functions that `RB_GENERATE` of `sys/tree.h` makes, over a heap of links. Elements are their
addresses and `cmp` compares what they hold; `RB_AUGMENT` does nothing, as where it is not
defined otherwise. `none` is the use of a `NULL` pointer, or a loop that takes more than `fuel`
rounds. Mirrored branches are one function with the side as its argument.
-/
namespace OpenbsdKernel.RbTree

open BinTree

/-- `RB_BLACK` and `RB_RED`. -/
inductive Color
  | black
  | red
  deriving DecidableEq, Repr

/-- `rbe_left` and `rbe_right`, `rbe_parent` and `rbe_color` of every element, and the root. -/
structure Head (α : Type*) where
  rbe : Dir → α → Option α
  rbe_parent : α → Option α
  rbe_color : α → Color
  rbh_root : Option α

variable {α : Type*}

/-- An empty head, whatever the elements hold. -/
def rbInit (rbe : Dir → α → Option α) (rbe_parent : α → Option α) (rbe_color : α → Color) : Head α :=
  ⟨rbe, rbe_parent, rbe_color, none⟩

variable [DecidableEq α]

namespace Head

def setLink (h : Head α) (d : Dir) (a : α) (v : Option α) : Head α :=
  { h with rbe := fun d' b => if d' = d ∧ b = a then v else h.rbe d' b }

def setParent (h : Head α) (a : α) (v : Option α) : Head α :=
  { h with rbe_parent := fun b => if b = a then v else h.rbe_parent b }

def setColor (h : Head α) (a : α) (c : Color) : Head α :=
  { h with rbe_color := fun b => if b = a then c else h.rbe_color b }

/-- `if (o) RB_PARENT(o) = v`. -/
def setParentOf (h : Head α) (o : Option α) (v : Option α) : Head α :=
  match o with
  | none => h
  | some a => h.setParent a v

/-- `if (o) RB_COLOR(o) = c`. -/
def setColorOf (h : Head α) (o : Option α) (c : Color) : Head α :=
  match o with
  | none => h
  | some a => h.setColor a c

/-- `o == NULL || RB_COLOR(o) == RB_BLACK`. -/
def isBlack (h : Head α) (o : Option α) : Prop := ∀ a, o = some a → h.rbe_color a = .black

instance (h : Head α) (o : Option α) : Decidable (h.isBlack o) :=
  match o with
  | none => isTrue nofun
  | some a => decidable_of_iff (h.rbe_color a = .black) (by simp [isBlack])

/-- What points to `old` from above it, its parent or the head, points to `new`. -/
def replaceChild (h : Head α) (parent : Option α) (old : α) (new : Option α) : Head α :=
  match parent with
  | none => { h with rbh_root := new }
  | some p => if h.rbe .left p = some old then h.setLink .left p new else h.setLink .right p new

def rbSet (h : Head α) (elm : α) (parent : Option α) : Head α :=
  let h := h.setParent elm parent
  let h := h.setLink .right elm none
  let h := h.setLink .left elm none
  h.setColor elm .red

/-- `RB_SET_BLACKRED`. -/
def setBlackred (h : Head α) (black red : α) : Head α := (h.setColor black .black).setColor red .red

/-- `(elm)->field = (old)->field`. -/
def copy (h : Head α) (elm old : α) : Head α :=
  let h' := h.setLink .left elm (h.rbe .left old)
  let h' := h'.setLink .right elm (h.rbe .right old)
  let h' := h'.setParent elm (h.rbe_parent old)
  h'.setColor elm (h.rbe_color old)

end Head

/-- `RB_ROTATE_{LEFT,RIGHT}` with the side that `elm` goes to. -/
def rbRotate (d : Dir) (h : Head α) (elm : α) : Option (Head α) :=
  (h.rbe d.swap elm).map fun tmp =>
    let h := h.setLink d.swap elm (h.rbe d tmp)
    let h := h.setParentOf (h.rbe d tmp) (some elm)
    let h := h.setParent tmp (h.rbe_parent elm)
    let h := h.replaceChild (h.rbe_parent elm) elm (some tmp)
    let h := h.setLink d tmp (some elm)
    h.setParent elm (some tmp)

/-- A round below a parent at side `d` of the grandparent, with the next element. -/
def insertColorSide (d : Dir) (h : Head α) (elm parent gparent : α) : Option (Head α × α) :=
  let last (h : Head α) (elm parent : α) : Option (Head α × α) :=
    (rbRotate d.swap (h.setBlackred parent gparent) gparent).map fun h => (h, elm)
  let tmp := h.rbe d.swap gparent
  if ¬h.isBlack tmp then some ((h.setColorOf tmp .black).setBlackred parent gparent, gparent)
  else if h.rbe d.swap parent = some elm then (rbRotate d h parent).bind fun h => last h parent elm
  else last h elm parent

def rbInsertColor : ℕ → Head α → α → Option (Head α)
  | 0, _, _ => none
  | fuel + 1, h, elm =>
    let done := h.rbh_root.map fun root => h.setColor root .black
    match h.rbe_parent elm with
    | none => done
    | some parent =>
      if h.rbe_color parent = .red then
        (h.rbe_parent parent).bind fun gparent =>
          (if h.rbe .left gparent = some parent then insertColorSide .left h elm parent gparent
            else insertColorSide .right h elm parent gparent).bind fun (h, elm) =>
            rbInsertColor fuel h elm
      else done

/-- The sibling at the other side than `d`, made black. -/
def removeColorSibling (d : Dir) (h : Head α) (parent : α) : Option (Head α × α) :=
  (h.rbe d.swap parent).bind fun tmp =>
    if h.rbe_color tmp = .red then
      (rbRotate d (h.setBlackred tmp parent) parent).bind fun h =>
        (h.rbe d.swap parent).map fun tmp => (h, tmp)
    else some (h, tmp)

/-- The sibling with a red child at the other side than `d`. -/
def removeColorFar (d : Dir) (h : Head α) (parent tmp : α) : Option (Head α × α) :=
  if h.isBlack (h.rbe d.swap tmp) then
    let h := h.setColorOf (h.rbe d tmp) .black
    let h := h.setColor tmp .red
    (rbRotate d.swap h tmp).bind fun h => (h.rbe d.swap parent).map fun tmp => (h, tmp)
  else some (h, tmp)

/-- A round below `parent` at side `d`; the flag is `break`. -/
def removeColorSide (d : Dir) (h : Head α) (parent : α) : Option (Head α × Bool) :=
  (removeColorSibling d h parent).bind fun (h, tmp) =>
    if h.isBlack (h.rbe .left tmp) ∧ h.isBlack (h.rbe .right tmp) then
      some (h.setColor tmp .red, false)
    else
      (removeColorFar d h parent tmp).bind fun (h, tmp) =>
        let h := h.setColor tmp (h.rbe_color parent)
        let h := h.setColor parent .black
        let h := h.setColorOf (h.rbe d.swap tmp) .black
        (rbRotate d h parent).map fun h => (h, true)

def rbRemoveColor : ℕ → Head α → Option α → Option α → Option (Head α)
  | 0, _, _, _ => none
  | fuel + 1, h, parent, elm =>
    if h.isBlack elm ∧ elm ≠ h.rbh_root then
      parent.bind fun p =>
        (if h.rbe .left p = elm then removeColorSide .left h p
          else removeColorSide .right h p).bind fun (h, brk) =>
          if brk then some (h.setColorOf h.rbh_root .black)
          else rbRemoveColor fuel h (h.rbe_parent p) (some p)
    else some (h.setColorOf elm .black)

/-- The child takes the place of `elm`. -/
def Head.splice (h : Head α) (elm : α) (child : Option α) : Head α :=
  let parent := h.rbe_parent elm
  (h.setParentOf child parent).replaceChild parent elm child

/-- Links to side `d`, as far as they go. -/
def farthest (d : Dir) : ℕ → Head α → α → Option α
  | 0, _, _ => none
  | fuel + 1, h, elm =>
    match h.rbe d elm with
    | none => some elm
    | some next => farthest d fuel h next

/-- The loop that augments all that lies above; without `RB_AUGMENT` it has to end only. -/
def augmentAbove : ℕ → Head α → Option α → Option Unit
  | 0, _, _ => none
  | _ + 1, _, none => some ()
  | fuel + 1, h, some left => augmentAbove fuel h (h.rbe_parent left)

/-- The label `color` of `name##_RB_REMOVE`. -/
def removeColored (fuel : ℕ) (h : Head α) (color : Color) (parent child : Option α) :
    Option (Head α) :=
  if color = .black then rbRemoveColor fuel h parent child else some h

/-- An element with two children: its successor `elm` takes its place. -/
def removeInner (fuel : ℕ) (h : Head α) (old elm : α) : Option (Head α) :=
  let child := h.rbe .right elm
  let parent := h.rbe_parent elm
  let color := h.rbe_color elm
  let h := h.splice elm child
  let parent := if h.rbe_parent elm = some old then some elm else parent
  let h := h.copy elm old
  let h := h.replaceChild (h.rbe_parent old) old (some elm)
  (h.rbe .left old).bind fun left =>
    let h := h.setParent left (some elm)
    let h := h.setParentOf (h.rbe .right old) (some elm)
    (augmentAbove fuel h parent).bind fun _ => removeColored fuel h color parent child

/-- `name##_RB_REMOVE`. -/
def rbRemove (fuel : ℕ) (h : Head α) (elm : α) : Option (Head α × α) :=
  let outer (child : Option α) : Option (Head α) :=
    removeColored fuel (h.splice elm child) (h.rbe_color elm) (h.rbe_parent elm) child
  (if h.rbe .left elm = none then outer (h.rbe .right elm)
    else match h.rbe .right elm with
      | none => outer (h.rbe .left elm)
      | some right => (farthest .left fuel h right).bind fun next => removeInner fuel h elm next).map
    fun h => (h, elm)

/-- The variables of the loops that go down from the root. -/
structure Walk (α : Type*) where
  tmp : Option α
  parent : Option α
  res : Option α
  comp : ℤ

/-- The loop of insertion and of the searches: where it is, what is above it, the last element
that it passed on the left, and the last comparison. -/
def walk (comp : α → ℤ) (h : Head α) : ℕ → Walk α → Option (Walk α)
  | 0, _ => none
  | fuel + 1, w =>
    match w.tmp with
    | none => some w
    | some tmp =>
      if comp tmp < 0 then walk comp h fuel ⟨h.rbe .left tmp, some tmp, some tmp, comp tmp⟩
      else if comp tmp > 0 then walk comp h fuel ⟨h.rbe .right tmp, some tmp, w.res, comp tmp⟩
      else some { w with parent := some tmp, comp := comp tmp }

def walkFromRoot (comp : α → ℤ) (fuel : ℕ) (h : Head α) : Option (Walk α) :=
  walk comp h fuel ⟨h.rbh_root, none, none, 0⟩

section Generate

variable (cmp : α → α → ℤ) (fuel : ℕ)

def Head.link (h : Head α) (parent : Option α) (comp : ℤ) (elm : α) : Head α :=
  match parent with
  | none => { h with rbh_root := some elm }
  | some p => if comp < 0 then h.setLink .left p (some elm) else h.setLink .right p (some elm)

/-- `name##_RB_INSERT`. -/
def rbInsert (h : Head α) (elm : α) : Option (Head α × Option α) :=
  (walkFromRoot (cmp elm) fuel h).bind fun w =>
    match w.tmp with
    | some tmp => some (h, some tmp)
    | none =>
      (rbInsertColor fuel ((h.rbSet elm w.parent).link w.parent w.comp elm) elm).map fun h => (h, none)

/-- `name##_RB_FIND`. -/
def rbFind (h : Head α) (elm : α) : Option (Option α) :=
  (walkFromRoot (cmp elm) fuel h).map fun w => w.tmp

/-- `name##_RB_NFIND`. -/
def rbNfind (h : Head α) (elm : α) : Option (Option α) :=
  (walkFromRoot (cmp elm) fuel h).map fun w => w.tmp.or w.res

/-- `name##_RB_MINMAX`. -/
def rbMinmax (h : Head α) (val : ℤ) : Option (Option α) :=
  (walkFromRoot (fun _ => if val < 0 then -1 else 1) fuel h).map fun w => w.parent

def RB_NEGINF : ℤ := -1
def RB_INF : ℤ := 1

def rbMin (h : Head α) : Option (Option α) := rbMinmax fuel h RB_NEGINF
def rbMax (h : Head α) : Option (Option α) := rbMinmax fuel h RB_INF

/-- Up, while `elm` is at side `d` of its parent; then the parent. -/
def ascend (d : Dir) : ℕ → Head α → α → Option (Option α)
  | 0, _, _ => none
  | fuel + 1, h, elm =>
    match h.rbe_parent elm with
    | none => some none
    | some parent => if h.rbe d parent = some elm then ascend d fuel h parent else some (some parent)

/-- The neighbour of `elm` at side `d`. -/
def neighbour (d : Dir) (h : Head α) (elm : α) : Option (Option α) :=
  match h.rbe d elm with
  | some next => (farthest d.swap fuel h next).map some
  | none =>
    match h.rbe_parent elm with
    | none => ascend d fuel h elm
    | some parent => if h.rbe d.swap parent = some elm then some (some parent) else ascend d fuel h elm

/-- `name##_RB_NEXT`. -/
def rbNext (h : Head α) (elm : α) : Option (Option α) := neighbour fuel .right h elm

/-- `name##_RB_PREV`. -/
def rbPrev (h : Head α) (elm : α) : Option (Option α) := neighbour fuel .left h elm

end Generate

end OpenbsdKernel.RbTree
