import Mathlib.Data.List.Basic
import Mathlib.Tactic

/-!
# Binary trees

Binary trees with a side as a parameter, so that mirrored operations are one operation, the
in-order list of a tree, trees with a hole in them, and comparison functions.
-/
namespace OpenbsdKernel.BinTree

inductive Dir
  | left
  | right
  deriving DecidableEq, Repr

def Dir.swap : Dir → Dir
  | .left => .right
  | .right => .left

@[simp] theorem Dir.swap_swap (d : Dir) : d.swap.swap = d := by
  cases d <;> rfl

@[simp] theorem Dir.swap_ne (d : Dir) : d.swap ≠ d := by
  cases d <;> nofun

@[simp] theorem Dir.ne_swap (d : Dir) : d ≠ d.swap := by
  cases d <;> nofun

theorem Dir.eq_or_eq_swap (d e : Dir) : e = d ∨ e = d.swap := by
  cases d <;> cases e <;> simp [Dir.swap]

inductive Bin (β : Type*)
  | nil
  | node (l : Bin β) (x : β) (r : Bin β)
  deriving DecidableEq, Repr

namespace Bin

variable {β : Type*} {t u v : Bin β} {x y : β} {d : Dir}

/-- The labels in order. -/
def toList : Bin β → List β
  | nil => []
  | node l x r => l.toList ++ x :: r.toList

def root : Bin β → Option β
  | nil => none
  | node _ x _ => some x

/-- A node with `t` at side `d`. -/
def join (d : Dir) (t : Bin β) (x : β) (u : Bin β) : Bin β :=
  match d with
  | .left => node t x u
  | .right => node u x t

example (t u : Bin β) (x : β) : join .left t x u = node t x u := by simp [join]

@[simp] theorem toList_nil : (nil : Bin β).toList = [] := rfl

@[simp] theorem toList_node (l : Bin β) (x : β) (r : Bin β) :
    (node l x r).toList = l.toList ++ x :: r.toList := rfl

@[simp] theorem root_nil : (nil : Bin β).root = none := rfl

@[simp] theorem root_node (l : Bin β) (x : β) (r : Bin β) : (node l x r).root = some x := rfl

@[simp] theorem root_join (d : Dir) (t : Bin β) (x : β) (u : Bin β) :
    (join d t x u).root = some x := by
  cases d <;> rfl

theorem join_swap (d : Dir) (t : Bin β) (x : β) (u : Bin β) : join d.swap t x u = join d u x t := by
  cases d <;> rfl

theorem root_eq_none : t.root = none ↔ t = nil := by
  cases t <;> simp

theorem mem_of_root (h : t.root = some x) : x ∈ t.toList := by
  cases t with
  | nil => cases h
  | node l y r =>
    cases h
    simp

theorem exists_join (h : t.root = some x) (d : Dir) : ∃ u v, t = join d u x v := by
  cases t with
  | nil => cases h
  | node l y r =>
    cases h
    cases d with
    | left => exact ⟨l, r, rfl⟩
    | right => exact ⟨r, l, rfl⟩

@[simp] theorem mem_join : y ∈ (join d t x u).toList ↔ y ∈ t.toList ∨ y = x ∨ y ∈ u.toList := by
  cases d with
  | left => simp [join]
  | right =>
    simp only [join, toList_node, List.mem_append, List.mem_cons]
    tauto

theorem nodup_join : (join d t x u).toList.Nodup ↔
    t.toList.Nodup ∧ u.toList.Nodup ∧ x ∉ t.toList ∧ x ∉ u.toList ∧ ∀ a ∈ t.toList, a ∉ u.toList := by
  cases d with
  | left =>
    simp only [join, toList_node, List.nodup_append, List.nodup_cons, List.mem_cons]
    grind
  | right =>
    simp only [join, toList_node, List.nodup_append, List.nodup_cons, List.mem_cons]
    grind

theorem toList_rotate (d : Dir) (t : Bin β) (x : β) (u : Bin β) (y : β) (v : Bin β) :
    (join d (join d t x u) y v).toList = (join d t x (join d u y v)).toList := by
  cases d <;> simp [join]

theorem length_join (d : Dir) (t : Bin β) (x : β) (u : Bin β) :
    (join d t x u).toList.length = t.toList.length + u.toList.length + 1 := by
  cases d with
  | left =>
    simp only [join, toList_node, List.length_append, List.length_cons]
    omega
  | right =>
    simp only [join, toList_node, List.length_append, List.length_cons]
    omega

end Bin

/-- A function that compares as an order does: negative, zero or positive. -/
structure Comparator {α : Type*} (cmp : α → α → ℤ) : Prop where
  swap : ∀ a b, cmp a b < 0 ↔ 0 < cmp b a
  trans : ∀ a b c, cmp a b ≤ 0 → cmp b c ≤ 0 → cmp a c ≤ 0

namespace Comparator

variable {α : Type*} {cmp : α → α → ℤ} {a b c : α}

theorem self (h : Comparator cmp) (a : α) : cmp a a = 0 := by
  have := h.swap a a
  omega

theorem eq_zero (h : Comparator cmp) : cmp a b = 0 ↔ cmp b a = 0 := by
  have h1 := h.swap a b
  have h2 := h.swap b a
  omega

theorem lt_of_lt_of_le (h : Comparator cmp) (hab : cmp a b < 0) (hbc : cmp b c ≤ 0) :
    cmp a c < 0 := by
  by_contra hac
  have h1 := h.swap c a
  have h2 := h.swap a c
  have h3 := h.trans b c a hbc (by omega)
  have h4 := h.swap a b
  omega

theorem lt_of_le_of_lt (h : Comparator cmp) (hab : cmp a b ≤ 0) (hbc : cmp b c < 0) :
    cmp a c < 0 := by
  by_contra hac
  have h1 := h.swap c a
  have h2 := h.swap a c
  have h3 := h.trans c a b (by omega) hab
  have h4 := h.swap b c
  omega

/-- Numbers are compared by their difference. -/
theorem sub : Comparator fun a b : ℤ => a - b := ⟨fun a b => by omega, fun a b c => by omega⟩

theorem comap {β : Type*} (h : Comparator cmp) (f : β → α) : Comparator fun a b => cmp (f a) (f b) :=
  ⟨fun a b => h.swap (f a) (f b), fun a b c => h.trans (f a) (f b) (f c)⟩

theorem eq_zero_trans (h : Comparator cmp) (hab : cmp a b = 0) (hbc : cmp b c = 0) : cmp a c = 0 := by
  have hac := h.trans a b c hab.le hbc.le
  have hca := h.trans c b a (h.eq_zero.1 hbc).le (h.eq_zero.1 hab).le
  have := h.swap a c
  omega

end Comparator

/-- A comparison that is decided by `d`, or by `e` where `d` says equal. -/
def andThen (d e : ℤ) : ℤ := if d ≠ 0 then d else e

theorem andThen_zero (e : ℤ) : andThen 0 e = e := if_neg (not_not.2 rfl)

theorem andThen_of_ne {d : ℤ} (h : d ≠ 0) (e : ℤ) : andThen d e = d := if_pos h

theorem andThen_eq_zero {d e : ℤ} : andThen d e = 0 ↔ d = 0 ∧ e = 0 := by
  unfold andThen
  split_ifs with h
  · simp [h]
  · simp [not_not.1 h]

theorem andThen_assoc (d e f : ℤ) : andThen (andThen d e) f = andThen d (andThen e f) := by
  by_cases h : d = 0
  · rw [h, andThen_zero, andThen_zero]
  · rw [andThen_of_ne h, andThen_of_ne h, andThen_of_ne h]

/-- Elements that the first comparison cannot tell apart are compared by the second. -/
theorem Comparator.andThen {α : Type*} {f g : α → α → ℤ} (hf : Comparator f)
    (hswap : ∀ a b, f a b = 0 → (g a b < 0 ↔ 0 < g b a))
    (htrans : ∀ a b c, f a b = 0 → f b c = 0 → g a b ≤ 0 → g b c ≤ 0 → g a c ≤ 0) :
    Comparator fun a b => andThen (f a b) (g a b) where
  swap a b := by
    by_cases h : f a b = 0
    · rw [h, hf.eq_zero.1 h, andThen_zero, andThen_zero]
      exact hswap a b h
    · rw [andThen_of_ne h, andThen_of_ne fun h' => h (hf.eq_zero.1 h')]
      exact hf.swap a b
  trans a b c hab hbc := by
    by_cases h : f a b = 0
    · rw [h, andThen_zero] at hab
      by_cases h' : f b c = 0
      · rw [h', andThen_zero] at hbc
        rw [hf.eq_zero_trans h h', andThen_zero]
        exact htrans a b c h h' hab hbc
      · rw [andThen_of_ne h'] at hbc
        have hlt := hf.lt_of_le_of_lt h.le (lt_of_le_of_ne hbc h')
        rw [andThen_of_ne hlt.ne]
        exact hlt.le
    · rw [andThen_of_ne h] at hab
      have hle : f b c ≤ 0 := by
        by_cases h' : f b c = 0
        · exact h'.le
        · rwa [andThen_of_ne h'] at hbc
      have hlt := hf.lt_of_lt_of_le (lt_of_le_of_ne hab h) hle
      rw [andThen_of_ne hlt.ne]
      exact hlt.le

/-- In strictly increasing order. -/
def Sorted {α : Type*} (cmp : α → α → ℤ) (l : List α) : Prop := l.Pairwise fun a b => cmp a b < 0

section Sorted

variable {α : Type*} {cmp : α → α → ℤ} {l l' : List α} {a b x : α}

theorem sorted_append : Sorted cmp (l ++ l') ↔
    Sorted cmp l ∧ Sorted cmp l' ∧ ∀ a ∈ l, ∀ b ∈ l', cmp a b < 0 := List.pairwise_append

theorem sorted_cons : Sorted cmp (a :: l) ↔ (∀ b ∈ l, cmp a b < 0) ∧ Sorted cmp l :=
  List.pairwise_cons

theorem Sorted.nodup (h : Sorted cmp l) (hc : Comparator cmp) : l.Nodup :=
  h.imp fun {a b} hlt heq => by
    have := hc.self b
    rw [heq] at hlt
    omega

/-- An element with the same place is the same element. -/
theorem Sorted.eq_of_cmp (h : Sorted cmp l) (hc : Comparator cmp) (ha : a ∈ l) (hb : b ∈ l)
    (heq : cmp a b = 0) : a = b := by
  by_contra hne
  have hsymm : Std.Symm fun a b => cmp a b < 0 ∨ cmp b a < 0 := ⟨fun _ _ h => h.symm⟩
  have hpair : l.Pairwise fun a b => cmp a b < 0 ∨ cmp b a < 0 := h.imp fun hlt => .inl hlt
  have hor := hpair.forall ha hb hne
  have := hc.eq_zero.1 heq
  omega

theorem Sorted.eq_of_le (h : Sorted cmp l) (hc : Comparator cmp) (ha : a ∈ l) (hb : b ∈ l)
    (hab : cmp a b ≤ 0) (hba : cmp b a ≤ 0) : a = b := by
  refine h.eq_of_cmp hc ha hb ?_
  have h1 := hc.swap a b
  have h2 := hc.swap b a
  omega

/-- There is one element with the place of another. -/
theorem Sorted.equal_iff {elm : α} (h : Sorted cmp l) (hc : Comparator cmp) (hx : x ∈ l)
    (hz : cmp elm x = 0) (y : α) : some x = some y ↔ y ∈ l ∧ cmp elm y = 0 := by
  rw [Option.some_inj]
  constructor
  · rintro rfl
    exact ⟨hx, hz⟩
  · rintro ⟨hy, hzy⟩
    refine h.eq_of_le hc hx hy ?_ ?_
    · exact hc.trans x elm y (hc.eq_zero.1 hz).le hzy.le
    · exact hc.trans y elm x (hc.eq_zero.1 hzy).le hz.le

/-- There is one least element with a property. -/
theorem Sorted.least_of_iff {p : α → Prop} (h : Sorted cmp l) (hc : Comparator cmp) (hx : x ∈ l)
    (hp : p x) (hleast : ∀ a ∈ l, p a → cmp x a ≤ 0) (y : α) :
    some x = some y ↔ y ∈ l ∧ p y ∧ ∀ a ∈ l, p a → cmp y a ≤ 0 := by
  rw [Option.some_inj]
  constructor
  · rintro rfl
    exact ⟨hx, hp, hleast⟩
  · exact fun ⟨hy, hpy, hle⟩ => h.eq_of_le hc hx hy (hleast y hy hpy) (hle x hx hp)

theorem Sorted.least_iff (h : Sorted cmp l) (hc : Comparator cmp) (hx : x ∈ l)
    (hleast : ∀ a ∈ l, cmp x a ≤ 0) (y : α) :
    some x = some y ↔ y ∈ l ∧ ∀ a ∈ l, cmp y a ≤ 0 := by
  rw [Option.some_inj]
  constructor
  · rintro rfl
    exact ⟨hx, hleast⟩
  · exact fun ⟨hy, hle⟩ => h.eq_of_le hc hx hy (hleast y hy) (hle x hx)

/-- There is one greatest element. -/
theorem Sorted.greatest_iff (h : Sorted cmp l) (hc : Comparator cmp) (hx : x ∈ l)
    (hgreatest : ∀ a ∈ l, cmp a x ≤ 0) (y : α) :
    some x = some y ↔ y ∈ l ∧ ∀ a ∈ l, cmp a y ≤ 0 := by
  rw [Option.some_inj]
  constructor
  · rintro rfl
    exact ⟨hx, hgreatest⟩
  · exact fun ⟨hy, hle⟩ => h.eq_of_le hc hx hy (hle x hx) (hgreatest y hy)

/-- A new element goes between what is smaller and what is greater. -/
theorem Sorted.insert (h : Sorted cmp (l ++ l')) (hc : Comparator cmp) (hl : ∀ a ∈ l, 0 < cmp x a)
    (hl' : ∀ b ∈ l', cmp x b < 0) : Sorted cmp (l ++ x :: l') := by
  obtain ⟨h1, h2, h3⟩ := sorted_append.1 h
  refine sorted_append.2 ⟨h1, sorted_cons.2 ⟨hl', h2⟩, ?_⟩
  intro a ha b hb
  obtain rfl | hb := List.mem_cons.1 hb
  · exact (hc.swap a b).2 (hl a ha)
  · exact h3 a ha b hb

/-- In order, the first is the least. -/
theorem Sorted.head?_iff (h : Sorted cmp l) (hc : Comparator cmp) (y : α) :
    l.head? = some y ↔ y ∈ l ∧ ∀ a ∈ l, cmp y a ≤ 0 := by
  cases l with
  | nil => simp
  | cons x l =>
    refine h.least_iff hc (List.mem_cons_self ..) (fun a ha => ?_) y
    obtain rfl | ha := List.mem_cons.1 ha
    · exact (hc.self a).le
    · exact ((sorted_cons.1 h).1 a ha).le

/-- In order, the last is the greatest. -/
theorem Sorted.getLast?_iff (h : Sorted cmp l) (hc : Comparator cmp) (y : α) :
    l.getLast? = some y ↔ y ∈ l ∧ ∀ a ∈ l, cmp a y ≤ 0 := by
  cases l using List.reverseRecOn with
  | nil => simp
  | append_singleton l x =>
    rw [List.getLast?_concat]
    refine h.greatest_iff hc (by simp) (fun a ha => ?_) y
    obtain ha | ha := List.mem_append.1 ha
    · exact ((sorted_append.1 h).2.2 a ha x (by simp)).le
    · rw [List.mem_singleton.1 ha]
      exact (hc.self x).le

/-- Where a property holds from a point on, the first from there is the least that has it. -/
theorem Sorted.head?_append_iff {p : α → Prop} (h : Sorted cmp (l ++ l')) (hc : Comparator cmp)
    (hl : ∀ a ∈ l, ¬p a) (hl' : ∀ a ∈ l', p a) (y : α) :
    l'.head? = some y ↔ y ∈ l ++ l' ∧ p y ∧ ∀ a ∈ l ++ l', p a → cmp y a ≤ 0 := by
  rw [Sorted.head?_iff (sorted_append.1 h).2.1 hc]
  have hmem : ∀ a, a ∈ l ++ l' → p a → a ∈ l' :=
    fun a ha hp => (List.mem_append.1 ha).resolve_left fun hal => hl a hal hp
  constructor
  · rintro ⟨hy, hle⟩
    exact ⟨List.mem_append_right _ hy, hl' y hy, fun a ha hp => hle a (hmem a ha hp)⟩
  · rintro ⟨hy, hp, hle⟩
    exact ⟨hmem y hy hp, fun a ha => hle a (List.mem_append_right _ ha) (hl' a ha)⟩

/-- Where a property holds up to a point, the last before it is the greatest that has it. -/
theorem Sorted.getLast?_append_iff {p : α → Prop} (h : Sorted cmp (l ++ l')) (hc : Comparator cmp)
    (hl : ∀ a ∈ l, p a) (hl' : ∀ a ∈ l', ¬p a) (y : α) :
    l.getLast? = some y ↔ y ∈ l ++ l' ∧ p y ∧ ∀ a ∈ l ++ l', p a → cmp a y ≤ 0 := by
  rw [Sorted.getLast?_iff (sorted_append.1 h).1 hc]
  have hmem : ∀ a, a ∈ l ++ l' → p a → a ∈ l :=
    fun a ha hp => (List.mem_append.1 ha).resolve_right fun hal => hl' a hal hp
  constructor
  · rintro ⟨hy, hle⟩
    exact ⟨List.mem_append_left _ hy, hl y hy, fun a ha hp => hle a (hmem a ha hp)⟩
  · rintro ⟨hy, hp, hle⟩
    exact ⟨hmem y hy hp, fun a ha => hle a (List.mem_append_left _ ha) (hl a ha)⟩

end Sorted

/-- The comparisons change sides once along a list. -/
def Steady {α : Type*} (comp : α → ℤ) (l : List α) : Prop :=
  l.Pairwise fun a b => (comp a ≤ 0 → comp b < 0) ∧ (0 ≤ comp b → 0 < comp a)

section Steady

variable {α : Type*} {cmp : α → α → ℤ} {l : List α}

theorem Comparator.steady (hc : Comparator cmp) (h : Sorted cmp l) (elm : α) : Steady (cmp elm) l :=
  h.imp fun {a b} hab => by
    refine ⟨fun hle => hc.lt_of_le_of_lt hle hab, fun hle => ?_⟩
    have h1 := hc.swap elm b
    have h2 := hc.swap b elm
    have h3 := hc.lt_of_lt_of_le (c := elm) hab (by omega)
    have h4 := hc.swap a elm
    omega

theorem steady_const {comp : ℤ} (hcomp : comp ≠ 0) (l : List α) : Steady (fun _ => comp) l :=
  List.pairwise_of_forall fun _ _ =>
    ⟨fun h => lt_of_le_of_ne h hcomp, fun h => lt_of_le_of_ne h hcomp.symm⟩

end Steady

end OpenbsdKernel.BinTree
