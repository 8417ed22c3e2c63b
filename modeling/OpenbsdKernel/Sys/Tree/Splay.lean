import OpenbsdKernel.Lib.BinTree

/-!
# Splay trees

The functions that `SPLAY_GENERATE` of `sys/tree.h` makes, over a heap of links. Elements are
their addresses and `cmp` compares what they hold. `none` is the use of a `NULL` pointer, or a
loop that takes more than `fuel` rounds.
-/
namespace OpenbsdKernel.SplayTree

open BinTree

/-- An element, or the node that `name##_SPLAY` has on its stack. -/
inductive Cell (α : Type*)
  | stack
  | elm (a : α)
  deriving DecidableEq, Repr

/-- `spe_left` and `spe_right` of every cell, and the root. -/
structure Head (α : Type*) where
  spe : Dir → Cell α → Option α
  sph_root : Option α

variable {α : Type*} [DecidableEq α]

/-- An empty head, whatever the elements hold. -/
def splayInit (spe : Dir → Cell α → Option α) : Head α := ⟨spe, none⟩

def Head.set (h : Head α) (d : Dir) (c : Cell α) (v : Option α) : Head α :=
  { h with spe := fun d' c' => if d' = d ∧ c' = c then v else h.spe d' c' }

/-- `SPLAY_ROTATE_{LEFT,RIGHT}` with the side that the root goes to. -/
def splayRotate (d : Dir) (h : Head α) (root tmp : α) : Head α :=
  let h := h.set d.swap (.elm root) (h.spe d (.elm tmp))
  let h := h.set d (.elm tmp) (some root)
  { h with sph_root := some tmp }

def splayRotateRight (h : Head α) (root tmp : α) : Head α := splayRotate .right h root tmp
def splayRotateLeft (h : Head α) (root tmp : α) : Head α := splayRotate .left h root tmp

/-- `SPLAY_LINK{LEFT,RIGHT}`; `tmp` becomes the root. -/
def splayLink (d : Dir) (h : Head α) (root : α) (tmp : Cell α) : Head α :=
  let h := h.set d tmp (some root)
  { h with sph_root := h.spe d (.elm root) }

def splayLinkleft (h : Head α) (root : α) (tmp : Cell α) : Head α := splayLink .left h root tmp
def splayLinkright (h : Head α) (root : α) (tmp : Cell α) : Head α := splayLink .right h root tmp

def splayAssemble (h : Head α) (root : α) (left right : Cell α) : Head α :=
  let h := h.set .right left (h.spe .left (.elm root))
  let h := h.set .left right (h.spe .right (.elm root))
  let h := h.set .left (.elm root) (h.spe .right .stack)
  h.set .right (.elm root) (h.spe .left .stack)

/-- Where the loop is: the head, and for each side the last cell that was linked to that side
(`__right` for links to the left, `__left` for links to the right). -/
structure State (α : Type*) where
  head : Head α
  last : Dir → Cell α

def towards (d : Dir) (comp : ℤ) : Bool :=
  match d with
  | .left => comp < 0
  | .right => comp > 0

/-- The loop goes down to one side; the flag is `break`. -/
def splaySide (comp : α → ℤ) (d : Dir) (s : State α) (root : α) : State α × Bool :=
  let linked (h : Head α) (root : α) : State α × Bool :=
    (⟨splayLink d h root (s.last d), fun e => if e = d then .elm root else s.last e⟩, false)
  match s.head.spe d (.elm root) with
  | none => (s, true)
  | some tmp =>
    if towards d (comp tmp) then
      let h := splayRotate d.swap s.head root tmp
      if h.spe d (.elm tmp) = none then ({ s with head := h }, true) else linked h tmp
    else linked s.head root

/-- The loop of `name##_SPLAY` and `name##_SPLAY_MINMAX`, which differ in the comparison only. -/
def splayLoop (comp : α → ℤ) : ℕ → State α → Option (State α)
  | 0, _ => none
  | fuel + 1, s =>
    s.head.sph_root.bind fun root =>
      if comp root < 0 then
        let (s, brk) := splaySide comp .left s root
        if brk then some s else splayLoop comp fuel s
      else if comp root > 0 then
        let (s, brk) := splaySide comp .right s root
        if brk then some s else splayLoop comp fuel s
      else some s

def splayWith (comp : α → ℤ) (fuel : ℕ) (h : Head α) : Option (Head α) :=
  let h := (h.set .left .stack none).set .right .stack none
  (splayLoop comp fuel ⟨h, fun _ => .stack⟩).bind fun s =>
    s.head.sph_root.map fun root => splayAssemble s.head root (s.last .right) (s.last .left)

section Generate

variable (cmp : α → α → ℤ) (fuel : ℕ)

/-- `name##_SPLAY`. -/
def splay (h : Head α) (elm : α) : Option (Head α) := splayWith (cmp elm) fuel h

/-- `name##_SPLAY_MINMAX`; with 0 for the comparison the loop does not end. -/
def splayMinmax (h : Head α) (comp : ℤ) : Option (Head α) :=
  if comp = 0 then none else splayWith (fun _ => comp) fuel h

/-- `name##_SPLAY_FIND`. -/
def splayFind (h : Head α) (elm : α) : Option (Head α × Option α) :=
  if h.sph_root = none then some (h, none)
  else
    (splay cmp fuel h elm).bind fun h =>
      h.sph_root.map fun root => (h, if cmp elm root = 0 then some root else none)

/-- `name##_SPLAY_INSERT`. -/
def splayInsert (h : Head α) (elm : α) : Option (Head α × Option α) :=
  if h.sph_root = none then
    some ({ (h.set .right (.elm elm) none).set .left (.elm elm) none with sph_root := some elm }, none)
  else
    (splay cmp fuel h elm).bind fun h => h.sph_root.map fun root =>
      if cmp elm root < 0 then
        let h := h.set .left (.elm elm) (h.spe .left (.elm root))
        let h := h.set .right (.elm elm) (some root)
        let h := h.set .left (.elm root) none
        ({ h with sph_root := some elm }, none)
      else if cmp elm root > 0 then
        let h := h.set .right (.elm elm) (h.spe .right (.elm root))
        let h := h.set .left (.elm elm) (some root)
        let h := h.set .right (.elm root) none
        ({ h with sph_root := some elm }, none)
      else (h, some root)

/-- `name##_SPLAY_REMOVE`. -/
def splayRemove (h : Head α) (elm : α) : Option (Head α × Option α) :=
  if h.sph_root = none then some (h, none)
  else
    (splay cmp fuel h elm).bind fun h => h.sph_root.bind fun root =>
      if cmp elm root = 0 then
        if h.spe .left (.elm root) = none then
          some ({ h with sph_root := h.spe .right (.elm root) }, some elm)
        else
          let tmp := h.spe .right (.elm root)
          (splay cmp fuel { h with sph_root := h.spe .left (.elm root) } elm).bind fun h =>
            h.sph_root.map fun root => (h.set .right (.elm root) tmp, some elm)
      else some (h, none)

/-- `SPLAY_MIN` and `SPLAY_MAX`. -/
def splayMinMax (h : Head α) (val : ℤ) : Option (Head α × Option α) :=
  if h.sph_root = none then some (h, none)
  else (splayMinmax fuel h val).map fun h => (h, h.sph_root)

def SPLAY_NEGINF : ℤ := -1
def SPLAY_INF : ℤ := 1

def splayMin (h : Head α) : Option (Head α × Option α) := splayMinMax fuel h SPLAY_NEGINF
def splayMax (h : Head α) : Option (Head α × Option α) := splayMinMax fuel h SPLAY_INF

end Generate

end OpenbsdKernel.SplayTree
