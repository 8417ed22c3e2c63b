import OpenbsdKernel.Sys.Tree.RbHeap

/-!
# Red-black balance

No red node has a red child, and as many black nodes lie on every way from the root to a leaf. For
a place in a tree the same is said of what is around it, with the number of black nodes that the
tree at the place has to have.
-/
namespace OpenbsdKernel.RbTree

open BinTree Bin

variable {α : Type*}

def rootColor : Tree α → Color
  | .nil => .black
  | .node _ x _ => x.2

/-- No red node has a red child. -/
def NoRedRed : Tree α → Prop
  | .nil => True
  | .node l x r => (x.2 = .red → rootColor l = .black ∧ rootColor r = .black) ∧ NoRedRed l ∧ NoRedRed r

/-- The numbers of black nodes on the ways from the root to the leaves. -/
def blacks : Tree α → List ℕ
  | .nil => [0]
  | .node l x r => (blacks l ++ blacks r).map (· + if x.2 = .black then 1 else 0)

example : blacks (.nil : Tree α) = [0] := by simp [blacks]

structure Balanced (t : Tree α) (n : ℕ) : Prop where
  noRedRed : NoRedRed t
  blacks : ∀ m ∈ blacks t, m = n

/-- A red-black tree. -/
structure RedBlack (t : Tree α) : Prop where
  root : rootColor t = .black
  balanced : ∃ n, Balanced t n

section Balanced

variable {t l r : Tree α} {d : Dir} {a : α} {c : Color} {n : ℕ}

@[simp] theorem rootColor_join : rootColor (Bin.join d l (a, c) r) = c := by
  cases d <;> rfl

theorem blacks_ne_nil : blacks t ≠ [] := by
  induction t with
  | nil => nofun
  | node l x r ihl ihr => simp [blacks, ihl]

theorem balanced_nil : Balanced (.nil : Tree α) n ↔ n = 0 := by
  constructor
  · exact fun h => (h.blacks 0 (List.mem_singleton.2 rfl)).symm
  · rintro rfl
    exact ⟨trivial, fun m hm => List.mem_singleton.1 hm⟩

theorem balanced_red : Balanced (Bin.join d l (a, .red) r) n ↔
    rootColor l = .black ∧ rootColor r = .black ∧ Balanced l n ∧ Balanced r n := by
  have hnode : ∀ l r : Tree α, Balanced (.node l (a, .red) r) n ↔
      rootColor l = .black ∧ rootColor r = .black ∧ Balanced l n ∧ Balanced r n := by
    intro l r
    constructor
    · rintro ⟨⟨hred, hl, hr⟩, hb⟩
      simp only [blacks, reduceCtorEq, if_false, Nat.add_zero, List.map_id', List.mem_append] at hb
      exact ⟨(hred rfl).1, (hred rfl).2, ⟨hl, fun m hm => hb m (.inl hm)⟩, hr, fun m hm => hb m (.inr hm)⟩
    · rintro ⟨h1, h2, hl, hr⟩
      refine ⟨⟨fun _ => ⟨h1, h2⟩, hl.noRedRed, hr.noRedRed⟩, ?_⟩
      simp only [blacks, reduceCtorEq, if_false, Nat.add_zero, List.map_id', List.mem_append]
      exact fun m hm => hm.elim (hl.blacks m) (hr.blacks m)
  cases d with
  | left => exact hnode l r
  | right =>
    refine (hnode r l).trans ?_
    tauto

theorem balanced_black : Balanced (Bin.join d l (a, .black) r) n ↔
    ∃ m, n = m + 1 ∧ Balanced l m ∧ Balanced r m := by
  have hnode : ∀ l r : Tree α, Balanced (.node l (a, .black) r) n ↔
      ∃ m, n = m + 1 ∧ Balanced l m ∧ Balanced r m := by
    intro l r
    have hmap : ∀ m, m ∈ blacks (.node l (a, .black) r) ↔ ∃ k, (k ∈ blacks l ∨ k ∈ blacks r) ∧ k + 1 = m := by
      simp only [blacks, if_true, List.mem_map, List.mem_append, implies_true]
    constructor
    · rintro ⟨⟨-, hl, hr⟩, hb⟩
      obtain ⟨k, hk⟩ := List.exists_mem_of_ne_nil _ (blacks_ne_nil (t := l))
      have hn := hb (k + 1) ((hmap _).2 ⟨k, .inl hk, rfl⟩)
      refine ⟨k, hn.symm, ⟨hl, fun m hm => ?_⟩, hr, fun m hm => ?_⟩
      · have := hb (m + 1) ((hmap _).2 ⟨m, .inl hm, rfl⟩)
        omega
      · have := hb (m + 1) ((hmap _).2 ⟨m, .inr hm, rfl⟩)
        omega
    · rintro ⟨k, rfl, hl, hr⟩
      refine ⟨⟨nofun, hl.noRedRed, hr.noRedRed⟩, fun m hm => ?_⟩
      obtain ⟨j, hj, rfl⟩ := (hmap m).1 hm
      rw [hj.elim (hl.blacks j) (hr.blacks j)]
  cases d with
  | left => exact hnode l r
  | right =>
    refine (hnode r l).trans ?_
    simp only [and_comm]

theorem balanced_black_succ : Balanced (Bin.join d l (a, .black) r) (n + 1) ↔
    Balanced l n ∧ Balanced r n := by
  rw [balanced_black]
  constructor
  · rintro ⟨m, hm, hl, hr⟩
    obtain rfl : n = m := by omega
    exact ⟨hl, hr⟩
  · exact fun h => ⟨n, rfl, h.1, h.2⟩

theorem Balanced.exists_join (ht : Balanced t (n + 1)) (d : Dir) :
    ∃ a c l r, t = Bin.join d l (a, c) r := by
  cases t with
  | nil => cases balanced_nil.1 ht
  | node l x r =>
    obtain ⟨a, c⟩ := x
    cases d with
    | left => exact ⟨a, c, l, r, rfl⟩
    | right => exact ⟨a, c, r, l, rfl⟩

end Balanced

/-- The colour above a place; above the root only black will do, as below a red node. -/
def aboveColor : Path α → Color
  | [] => .red
  | f :: _ => f.label.2

/-- What is around a place is in balance with `n` black nodes at it. -/
def Around : Path α → ℕ → Prop
  | [], _ => True
  | ⟨_, (_, .black), s⟩ :: ctx, n => Balanced s n ∧ Around ctx (n + 1)
  | ⟨_, (_, .red), s⟩ :: ctx, n => Balanced s n ∧ rootColor s = .black ∧ aboveColor ctx = .black ∧
      Around ctx n

/-- The tree at the place is in balance with what is around it. -/
def Fits (ctx : Path α) (t : Tree α) : Prop :=
  ∃ n, Around ctx n ∧ Balanced t n ∧ (aboveColor ctx = .red → rootColor t = .black)

section Around

variable {ctx ctx' : Path α} {t : Tree α} {n : ℕ} {f : Frame (α × Color)}

theorem fits_nil : Fits [] t ↔ RedBlack t := by
  constructor
  · exact fun ⟨n, _, hb, hc⟩ => ⟨hc rfl, n, hb⟩
  · exact fun ⟨hc, n, hb⟩ => ⟨n, trivial, hb, fun _ => hc⟩

theorem fits_cons : Fits (f :: ctx) t ↔ Fits ctx (Bin.join f.side t f.label f.sibling) := by
  obtain ⟨d, ⟨a, c⟩, s⟩ := f
  cases c with
  | black =>
    constructor
    · rintro ⟨n, ⟨hs, hctx⟩, ht, -⟩
      exact ⟨n + 1, hctx, balanced_black_succ.2 ⟨ht, hs⟩, fun _ => rootColor_join⟩
    · rintro ⟨n, hctx, hb, -⟩
      obtain ⟨m, rfl, ht, hs⟩ := balanced_black.1 hb
      exact ⟨m, ⟨hs, hctx⟩, ht, nofun⟩
  | red =>
    constructor
    · rintro ⟨n, ⟨hs, hsc, habove, hctx⟩, ht, hc⟩
      refine ⟨n, hctx, balanced_red.2 ⟨hc rfl, hsc, ht, hs⟩, fun hred => ?_⟩
      rw [habove] at hred
      cases hred
    · rintro ⟨n, hctx, hb, hc⟩
      obtain ⟨htc, hsc, ht, hs⟩ := balanced_red.1 hb
      refine ⟨n, ⟨hs, hsc, ?_, hctx⟩, ht, fun _ => htc⟩
      cases habove : aboveColor ctx with
      | black => rfl
      | red =>
        have := hc habove
        rw [rootColor_join] at this
        cases this

theorem fits_plug : Fits (ctx ++ ctx') t ↔ Fits ctx' (plug ctx t) := by
  induction ctx generalizing t with
  | nil => rfl
  | cons f ctx ih => exact fits_cons.trans ih

theorem redBlack_plug : RedBlack (plug ctx t) ↔ Fits ctx t := by
  rw [← fits_nil, ← fits_plug, List.append_nil]

end Around

end OpenbsdKernel.RbTree
