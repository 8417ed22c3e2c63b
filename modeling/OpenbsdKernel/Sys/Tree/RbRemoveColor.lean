import OpenbsdKernel.Sys.Tree.RbInsertColor

/-!
# Colours after a removal

The loop of `name##_RB_REMOVE_COLOR` goes up with a tree that has one black node too few on its
ways, which is all that is out of balance.
-/
namespace OpenbsdKernel.RbTree

open BinTree Bin

variable {α : Type*} {h : Head α} {ctx : Path α} {d e : Dir} {A B C T s t : Tree α} {x y p : α}
  {c : Color} {n : ℕ}

def blacken : Tree α → Tree α
  | .nil => .nil
  | .node l x r => .node l (x.1, .black) r

/-- The tree lacks a black node to have `n + 1`: it is in balance with `n`, or it is red and in
balance with a black root. -/
def Lacks (t : Tree α) (n : ℕ) : Prop :=
  rootColor t = .black ∧ Balanced t n ∨ rootColor t = .red ∧ Balanced (blacken t) (n + 1)

@[simp] theorem blacken_join : blacken (Bin.join d A (x, c) B) = Bin.join d A (x, .black) B := by
  cases d <;> rfl

theorem keys_blacken : keys (blacken t) = keys t := by
  cases t with
  | nil => rfl
  | node l x r => simp [blacken]

theorem rootColor_blacken : rootColor (blacken t) = .black := by
  cases t <;> rfl

theorem Lacks.of_balanced (ht : Balanced t n) : Lacks t n := by
  cases hc : rootColor t with
  | black => exact .inl ⟨hc, ht⟩
  | red =>
    obtain ⟨a, l, r, rfl⟩ := exists_red hc .left
    obtain ⟨-, -, hl, hr⟩ := balanced_red.1 ht
    rw [Lacks, blacken_join]
    exact .inr ⟨hc, balanced_black_succ.2 ⟨hl, hr⟩⟩

theorem Around.fill (hctx : Around (⟨d, (p, c), s⟩ :: ctx) n) (hA : Balanced A n) (hB : Balanced B n)
    (hAc : rootColor A = .black) (hBc : rootColor B = .black) : Fits ctx (Bin.join e A (y, c) B) := by
  cases c with
  | black => exact ⟨n + 1, hctx.2, balanced_black_succ.2 ⟨hA, hB⟩, fun _ => rootColor_join⟩
  | red =>
    obtain ⟨-, -, habove, hctx⟩ := hctx
    refine ⟨n, hctx, balanced_red.2 ⟨hAc, hBc, hA, hB⟩, fun hred => ?_⟩
    rw [habove] at hred
    cases hred

theorem Around.sibling (hctx : Around (⟨d, (p, c), s⟩ :: ctx) n) : Balanced s n := by
  cases c with
  | black => exact hctx.1
  | red => exact hctx.1

theorem Above.root {f : Frame (α × Color)} {r : Option α} (hctx : Above h (f :: ctx) r) :
    ∃ a ∈ pathKeys (f :: ctx), h.rbh_root = some a := by
  induction ctx generalizing f r with
  | nil => exact ⟨f.label.1, mem_pathKeys_cons.2 (.inl rfl), hctx.2.2.2.2.2⟩
  | cons g ctx ih =>
    obtain ⟨a, ha, hroot⟩ := ih hctx.2.2.2.2.2
    exact ⟨a, mem_pathKeys_cons.2 (.inr (.inr ha)), hroot⟩

variable [DecidableEq α]

/-- A red sibling is rotated away; then the parent is red. -/
theorem removeColorSibling_spec (hat : At h (⟨d, (p, c), s⟩ :: ctx) t)
    (hctx : Around (⟨d, (p, c), s⟩ :: ctx) (n + 1)) :
    ∃ h' y B C c' ctx', removeColorSibling d h p = some (h', y) ∧
      At h' (⟨d, (p, c'), Bin.join d B (y, .black) C⟩ :: ctx') t ∧
      Around (⟨d, (p, c'), Bin.join d B (y, .black) C⟩ :: ctx') (n + 1) ∧
      (c' = .red ∨ ctx' = ctx) ∧
      keys (plug (⟨d, (p, c'), Bin.join d B (y, .black) C⟩ :: ctx') t) =
        keys (plug (⟨d, (p, c), s⟩ :: ctx) t) := by
  obtain ⟨y, cy, B, C, rfl⟩ := hctx.sibling.exists_join d
  have hup := at_cons.1 hat
  have htmp : h.rbe d.swap p = some y := by rw [hup.link_swap, rootKey_join]
  have hyc : h.rbe_color y = cy := hup.down_swap.color
  cases cy with
  | black =>
    refine ⟨h, y, B, C, c, ctx, ?_, hat, hctx, .inr rfl, rfl⟩
    simp [removeColorSibling, htmp, hyc]
  | red =>
    cases c with
    | red =>
      have := hctx.2.1
      rw [rootColor_join] at this
      cases this
    | black =>
      obtain ⟨hBc, hCc, hB, hC⟩ := balanced_red.1 hctx.1
      obtain ⟨h', hrun, hat'⟩ := ((hup.recolor_far .black).recolor .red).rotate
      have hdown := hat'.down
      obtain ⟨z, cz, B₁, B₂, rfl⟩ := hB.exists_join d
      obtain rfl : cz = .black := by simpa using hBc
      have hnext : h'.rbe d.swap p = some z := by rw [hdown.link_swap, rootKey_join]
      refine ⟨h', z, B₁, B₂, .red, _, ?_, hdown.down, ⟨hB, rootColor_join, rfl, hC, hctx.2⟩, .inl rfl, ?_⟩
      · have hset : (h.setColor y .black).setColor p .red = h.setBlackred y p := rfl
        simp [removeColorSibling, htmp, hyc, ← hset, hrun, hnext]
      · simp only [plug_cons]
        exact keys_plug_congr (by cases d <;> simp [Bin.join])

/-- The red child of the sibling is on the far side, after a rotation if need be. -/
theorem removeColorFar_spec (hat : At h ctx (Bin.join d t (p, c) (Bin.join d B (y, .black) C)))
    (hred : ¬(rootColor B = .black ∧ rootColor C = .black)) (hB : Balanced B n) (hC : Balanced C n) :
    ∃ h' y' B' C', removeColorFar d h p y = some (h', y') ∧
      At h' ctx (Bin.join d t (p, c) (Bin.join d B' (y', .black) C')) ∧ rootColor C' = .red ∧
      Balanced B' n ∧ Balanced C' n ∧
      keys (Bin.join d t (p, c) (Bin.join d B' (y', .black) C')) =
        keys (Bin.join d t (p, c) (Bin.join d B (y, .black) C)) := by
  have hsib := hat.down_swap
  have hfar : h.rbe d.swap y = rootKey C := hsib.link_swap
  have hblack := isBlack_rootKey (holds_join.1 hsib.here).2.2.2.2.2
  cases hCc : rootColor C with
  | red =>
    refine ⟨h, y, B, C, ?_, hat, hCc, hB, hC, rfl⟩
    rw [hCc] at hblack
    simp [removeColorFar, hfar, hblack]
  | black =>
    have hBc : rootColor B = .red := by
      cases hBc : rootColor B with
      | black => exact absurd ⟨hBc, hCc⟩ hred
      | red => rfl
    obtain ⟨b, B₁, B₂, rfl⟩ := exists_red hBc d
    obtain ⟨hB₁c, hB₂c, hB₁, hB₂⟩ := balanced_red.1 hB
    obtain ⟨h', hrun, hat'⟩ := ((hsib.recolor_child .black).recolor .red).rotate_swap
    have hup := at_cons.1 hat'
    rw [join_swap] at hup
    have hnext : h'.rbe d.swap p = some b := by rw [hup.link_swap, rootKey_join]
    have hnear : h.rbe d y = some b := by rw [hsib.link, rootKey_join]
    refine ⟨h', b, B₁, Bin.join d B₂ (y, .red) C, ?_, hup, rootColor_join, hB₁,
      balanced_red.2 ⟨hB₂c, hCc, hB₂, hC⟩, ?_⟩
    · simp [removeColorFar, hfar, hblack, hCc, hnear, Head.setColorOf, hrun, hnext]
    · cases d <;> simp [Bin.join]

theorem At.remove_last (hat : At h ctx (Bin.join d t (p, c) (Bin.join d B (y, .black) C)))
    (hCc : rootColor C = .red) :
    ∃ h', rbRotate d ((((h.setColor y (h.rbe_color p)).setColor p .black).setColorOf
        (((h.setColor y (h.rbe_color p)).setColor p .black).rbe d.swap y) .black)) p = some h' ∧
      At h' ctx (Bin.join d (Bin.join d t (p, .black) B) (y, c) (blacken C)) := by
  obtain ⟨z, C₁, C₂, rfl⟩ := exists_red hCc d
  have hcolored := (hat.recolor_far c).recolor .black
  have hfar := hcolored.down_swap.link_swap
  have hall := at_cons.1 (hcolored.down_swap.recolor_far .black)
  rw [join_swap] at hall
  rw [hat.color, hfar, rootKey_join, blacken_join]
  exact hall.rotate

/-- What a round leaves: a red-black tree, or the node above with its tree lacking a black node. -/
theorem removeColorSide_spec (hat : At h (⟨d, (p, c), s⟩ :: ctx) t)
    (hctx : Around (⟨d, (p, c), s⟩ :: ctx) (n + 1)) (ht : Balanced t n) :
    ∃ h' brk ctx' t', removeColorSide d h p = some (h', brk) ∧ At h' ctx' t' ∧
      keys (plug ctx' t') = keys (plug (⟨d, (p, c), s⟩ :: ctx) t) ∧
      (brk = true ∧ ctx' = [] ∧ RedBlack t' ∨
        brk = false ∧ rootKey t' = some p ∧ (rootColor t' = .red ∨ ctx' = ctx) ∧
          ∃ m, Around ctx' (m + 1) ∧ Lacks t' m) := by
  obtain ⟨h₁, y, B, C, c₁, ctx₁, hrun₁, hat₁, hctx₁, hor, hkeys₁⟩ := removeColorSibling_spec hat hctx
  obtain ⟨hB, hC⟩ := balanced_black_succ.1 hctx₁.sibling
  have hup := at_cons.1 hat₁
  have hsib := hup.down_swap
  simp only at hup hsib
  have hnear := isBlack_rootKey (holds_join.1 hsib.here).2.2.2.2.1
  have hfar := isBlack_rootKey (holds_join.1 hsib.here).2.2.2.2.2
  rw [← hsib.link] at hnear
  rw [← hsib.link_swap] at hfar
  have hcond : (h₁.isBlack (h₁.rbe .left y) ∧ h₁.isBlack (h₁.rbe .right y)) ↔
      rootColor B = .black ∧ rootColor C = .black := by
    rw [← hnear, ← hfar]
    cases d with
    | left => rfl
    | right => exact and_comm
  by_cases hblack : rootColor B = .black ∧ rootColor C = .black
  · refine ⟨_, false, ctx₁, _, ?_, hup.recolor_far .red, ?_, .inr ⟨rfl, by simp, ?_, ?_⟩⟩
    · rw [removeColorSide, hrun₁]
      simp only [Option.bind_some, if_pos (hcond.2 hblack)]
    · rw [← hkeys₁, plug_cons]
      exact keys_plug_congr (by cases d <;> simp [Bin.join])
    · rw [rootColor_join]
      exact hor
    · have hred : Balanced (Bin.join d B (y, .red) C) n := balanced_red.2 ⟨hblack.1, hblack.2, hB, hC⟩
      cases c₁ with
      | black => exact ⟨n + 1, hctx₁.2, .inl ⟨rootColor_join, balanced_black_succ.2 ⟨ht, hred⟩⟩⟩
      | red =>
        refine ⟨n, hctx₁.2.2.2, .inr ⟨rootColor_join, ?_⟩⟩
        rw [blacken_join]
        exact balanced_black_succ.2 ⟨ht, hred⟩
  · obtain ⟨h₂, y', B', C', hrun₂, hat₂, hCc, hB', hC', hkeys₂⟩ := removeColorFar_spec hup hblack hB hC
    obtain ⟨h₃, hrun₃, hat₃⟩ := hat₂.remove_last hCc
    have hblackC : Balanced (blacken C') (n + 1) := by
      obtain ⟨z, C₁, C₂, rfl⟩ := exists_red hCc d
      obtain ⟨-, -, hC₁, hC₂⟩ := balanced_red.1 hC'
      rw [blacken_join]
      exact balanced_black_succ.2 ⟨hC₁, hC₂⟩
    have hfits : Fits ctx₁ (Bin.join d (Bin.join d t (p, .black) B') (y', c₁) (blacken C')) :=
      hctx₁.fill (balanced_black_succ.2 ⟨ht, hB'⟩) hblackC rootColor_join rootColor_blacken
    refine ⟨h₃, true, [], _, ?_, at_plug.1 hat₃, ?_, .inl ⟨rfl, rfl, redBlack_plug.2 hfits⟩⟩
    · rw [removeColorSide, hrun₁]
      simp only [Option.bind_some, if_neg fun hb => hblack (hcond.1 hb), hrun₂]
      rw [hrun₃]
      rfl
    · rw [← hkeys₁, plug_cons, plug_nil]
      refine keys_plug_congr (.trans ?_ hkeys₂)
      cases d <;> simp [Bin.join, keys_blacken]

theorem rbRemoveColor_spec (fuel : ℕ) (hat : At h ctx t) (hctx : Around ctx (n + 1)) (ht : Lacks t n)
    (hfuel : rootColor t = .red ∨ ctx.length < fuel) (hpos : 0 < fuel) :
    ∃ h' t', rbRemoveColor fuel h (parentKey ctx) (rootKey t) = some h' ∧ At h' [] t' ∧ RedBlack t' ∧
      keys t' = keys (plug ctx t) := by
  induction fuel generalizing h ctx t n with
  | zero => cases hpos
  | succ fuel ih =>
    obtain ⟨htc, hbal⟩ | ⟨htc, hbal⟩ := ht
    · have hisBlack : h.isBlack (rootKey t) := (isBlack_rootKey hat.here).2 htc
      have hlen : ctx.length < fuel + 1 := hfuel.resolve_left (by simp [htc])
      cases ctx with
      | nil =>
        have hroot : h.rbh_root = rootKey t := hat.above
        refine ⟨_, t, ?_, hroot ▸ hat.root_black htc, ⟨htc, n, hbal⟩, rfl⟩
        simp [rbRemoveColor, hroot]
      | cons f ctx =>
        obtain ⟨d, ⟨p, c⟩, s⟩ := f
        have hroot : rootKey t ≠ h.rbh_root := by
          obtain ⟨a, ha, hroot⟩ := hat.above.root
          rw [hroot]
          exact fun ht => hat.apart a (mem_of_rootKey ht) ha
        have hup := at_cons.1 hat
        have hne : rootKey s ≠ rootKey t := by
          obtain ⟨a, c, l, r, rfl⟩ := hctx.sibling.exists_join d
          rw [← join_swap] at hup
          exact (hup.root_ne (by cases d <;> nofun)).symm
        have hside := hup.ite_side hne fun d => removeColorSide d h p
        obtain ⟨h', brk, ctx', t', hrun, hat', hkeys, hend | hgo⟩ := removeColorSide_spec hat hctx hbal
        · obtain ⟨rfl, rfl, hrb⟩ := hend
          refine ⟨_, t', ?_, hat'.root_black hrb.root, hrb, hkeys⟩
          rw [rbRemoveColor, if_pos ⟨hisBlack, hroot⟩, parentKey, Option.bind_some, hside, hrun]
          rfl
        · obtain ⟨rfl, hkey, hor, m, hctx', hlacks⟩ := hgo
          rw [List.length_cons] at hlen
          have hroom : rootColor t' = .red ∨ ctx'.length < fuel := by
            refine hor.imp_right ?_
            rintro rfl
            omega
          obtain ⟨h'', t'', hloop, hat'', hrb, hkeys'⟩ := ih hat' hctx' hlacks hroom (by omega)
          refine ⟨h'', t'', ?_, hat'', hrb, hkeys'.trans hkeys⟩
          obtain ⟨c', l, r, rfl⟩ := exists_join hkey .left
          have hparent : h'.rbe_parent p = parentKey ctx' := hat'.parent
          rw [rbRemoveColor, if_pos ⟨hisBlack, hroot⟩, parentKey, Option.bind_some, hside, hrun]
          simp only [Option.bind_some, Bool.false_eq_true, if_false, hparent]
          rw [← hkey]
          exact hloop
    · obtain ⟨a, l, r, rfl⟩ := exists_red htc .left
      have hred : ¬h.isBlack (rootKey (Bin.join .left l (a, .red) r)) := by
        rw [isBlack_rootKey hat.here]
        simp
      rw [blacken_join] at hbal
      refine ⟨_, _, ?_, at_plug.1 (hat.recolor .black), redBlack_plug.2 ⟨n + 1, hctx, hbal, ?_⟩, ?_⟩
      · rw [rbRemoveColor, if_neg fun hb => hred hb.1, rootKey_join]
        rfl
      · exact fun _ => rootColor_join
      · exact keys_plug_congr (keys_label .left _ _)

end OpenbsdKernel.RbTree
