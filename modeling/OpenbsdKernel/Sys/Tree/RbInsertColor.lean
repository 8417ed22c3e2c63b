import OpenbsdKernel.Sys.Tree.RbBalance
import OpenbsdKernel.Sys.Tree.RbEdit

/-!
# Colours after an insertion

The loop of `name##_RB_INSERT_COLOR` goes up with a red node whose parent may be red too, which is
all that is out of balance.
-/
namespace OpenbsdKernel.RbTree

open BinTree Bin

variable {α : Type*} {h : Head α} {ctx : Path α} {d e : Dir} {A B C D T t : Tree α} {x p g : α}
  {c : Color} {n : ℕ} {o : Option α}

theorem at_plug : At h ctx t ↔ At h [] (plug ctx t) := by
  induction ctx generalizing t with
  | nil => rfl
  | cons f ctx ih => exact at_cons.trans ih

theorem isBlack_rootKey (ht : Holds h o t) : h.isBlack (rootKey t) ↔ rootColor t = .black := by
  cases t with
  | nil => exact ⟨fun _ => rfl, fun _ => nofun⟩
  | node l x r =>
    obtain ⟨a, c⟩ := x
    obtain ⟨-, hc, -⟩ := ht
    simp [Head.isBlack, rootColor, hc]

theorem exists_red (hx : rootColor t = .red) (d : Dir) : ∃ a l r, t = Bin.join d l (a, .red) r := by
  cases t with
  | nil => cases hx
  | node l x r =>
    obtain ⟨a, c⟩ := x
    obtain rfl : c = .red := hx
    cases d with
    | left => exact ⟨a, l, r, rfl⟩
    | right => exact ⟨a, r, l, rfl⟩

theorem At.ite_side {β : Type*} (hat : At h ctx (Bin.join d A (x, c) B)) (hne : rootKey B ≠ rootKey A)
    [Decidable (h.rbe .left x = rootKey A)] (F : Dir → β) :
    (if h.rbe .left x = rootKey A then F .left else F .right) = F d := by
  cases d with
  | left => exact if_pos hat.link
  | right => exact if_neg fun heq => hne (hat.link_swap.symm.trans heq)

/-- Siblings are different, unless there are none. -/
theorem At.root_ne (hat : At h ctx (Bin.join d A (x, c) B)) (hA : A ≠ .nil) : rootKey B ≠ rootKey A := by
  obtain ⟨a, ha⟩ := Option.ne_none_iff_exists'.1 fun hn => hA (rootKey_eq_none.1 hn)
  rw [ha]
  intro hB
  exact (nodup_keys_join.1 hat.nodup_here).2.2.2.2 a (mem_of_rootKey ha) (mem_of_rootKey hB)

variable [DecidableEq α]

/-- A black root is made black at the end of the loops. -/
theorem At.root_black (hat : At h [] t) (hc : rootColor t = .black) :
    At (h.setColorOf h.rbh_root .black) [] t := by
  have hroot : h.rbh_root = rootKey t := hat.above
  rw [hroot]
  cases t with
  | nil => exact hat
  | node l x r =>
    obtain ⟨a, c⟩ := x
    obtain rfl : c = .black := hc
    exact At.recolor (d := .left) hat .black

theorem At.insert_last (hat : At h ctx (Bin.join d (Bin.join d T (p, .red) C) (g, .black) D)) :
    ∃ h', rbRotate d.swap (h.setBlackred p g) g = some h' ∧
      At h' (⟨d, (p, .black), Bin.join d C (g, .red) D⟩ :: ctx) T := by
  obtain ⟨h', hrun, hat'⟩ := ((hat.recolor_child .black).recolor .red).rotate_swap
  exact ⟨h', hrun, hat'.down⟩

/-- The loop at a red node: the tree `T` at the place is in balance, and so is all around it. -/
structure Climbing (h : Head α) (ctx : Path α) (T : Tree α) (elm : α) (n : ℕ) : Prop extends
    At h ctx T where
  root : rootKey T = some elm
  red : rootColor T = .red
  balanced : Balanced T n
  around : Around ctx n

theorem insertColorSide_spec
    (hc : Climbing h (⟨e, (p, .red), C⟩ :: ⟨d, (g, .black), D⟩ :: ctx) T x n) :
    ∃ h' ctx' T' x' m, insertColorSide d h x p g = some (h', x') ∧ Climbing h' ctx' T' x' m ∧
      ctx'.length ≤ ctx.length + 1 ∧
      keys (plug ctx' T') = keys (plug (⟨e, (p, .red), C⟩ :: ⟨d, (g, .black), D⟩ :: ctx) T) := by
  have hT := hc.balanced
  obtain ⟨hC, hCc, -, hD, hctx⟩ := hc.around
  have hup := at_cons.1 hc.toAt
  have hat := at_cons.1 hup
  simp only at hup hat
  have huncle : h.rbe d.swap g = rootKey D := hat.link_swap
  have hholds : Holds h (some g) D := (holds_join.1 hat.here).2.2.2.2.2
  by_cases hDc : rootColor D = .black
  · have hblack : h.isBlack (h.rbe d.swap g) := by rwa [huncle, isBlack_rootKey hholds]
    -- with the red node on the outer side its grandparent is rotated
    obtain rfl | rfl := Dir.eq_or_eq_swap d e
    · have houter : h.rbe e.swap p ≠ some x := by
        rw [hup.link_swap, ← hc.root]
        refine hup.root_ne fun hnil => ?_
        rw [hnil] at hc
        cases hc.red
      obtain ⟨h', hrun, hat'⟩ := hat.insert_last
      refine ⟨h', _, T, x, n, ?_, ⟨hat', hc.root, hc.red, hT, ?_, hctx⟩, by simp, ?_⟩
      · simp [insertColorSide, hblack, houter, hrun]
      · exact balanced_red.2 ⟨hCc, hDc, hC, hD⟩
      · simp only [plug_cons]
        refine keys_plug_congr ?_
        cases e <;> simp [Bin.join]
    · -- on the inner side it changes places with its parent before
      obtain ⟨a, A, B, rfl⟩ := exists_red hc.red d
      obtain rfl : a = x := by simpa using hc.root
      obtain ⟨hAc, hBc, hA, hB⟩ := balanced_red.1 hT
      have hinner : h.rbe d.swap p = some a := by
        rw [hup.link, rootKey_join]
      rw [join_swap] at hat
      obtain ⟨h₁, hrun₁, hat₁⟩ := hat.down.rotate
      obtain ⟨h', hrun, hat'⟩ := (at_cons.1 hat₁).insert_last
      refine ⟨h', _, _, p, n, ?_, ⟨hat', by simp, by simp, ?_, ?_, hctx⟩, by simp, ?_⟩
      · simp [insertColorSide, hblack, hinner, hrun₁, hrun]
      · exact balanced_red.2 ⟨hCc, hAc, hC, hA⟩
      · exact balanced_red.2 ⟨hBc, hDc, hB, hD⟩
      · simp only [plug_cons]
        refine keys_plug_congr ?_
        cases d <;> simp [Bin.join, Dir.swap]
  · have hred : rootColor D = .red := by
      cases hcol : rootColor D with
      | black => exact absurd hcol hDc
      | red => rfl
    have hnblack : ¬h.isBlack (h.rbe d.swap g) := by rwa [huncle, isBlack_rootKey hholds]
    obtain ⟨u, A, B, rfl⟩ := exists_red hred d
    obtain ⟨-, -, hA, hB⟩ := balanced_red.1 hD
    have hat' := ((hat.recolor_far .black).recolor_child .black).recolor .red
    refine ⟨_, ctx, _, g, n + 1, ?_, ⟨hat', by simp, by simp, ?_, hctx⟩, by omega, ?_⟩
    · rw [huncle, rootKey_join] at hnblack
      simp [insertColorSide, huncle, hnblack, Head.setColorOf, Head.setBlackred]
    · exact balanced_red.2 ⟨rootColor_join, rootColor_join, balanced_black_succ.2 ⟨hT, hC⟩,
        balanced_black_succ.2 ⟨hA, hB⟩⟩
    · simp only [plug_cons]
      refine keys_plug_congr ?_
      cases d <;> cases e <;> simp [Bin.join]

theorem rbInsertColor_spec (fuel : ℕ) (hc : Climbing h ctx T x n) (hfuel : ctx.length < fuel) :
    ∃ h' t', rbInsertColor fuel h x = some h' ∧ At h' [] t' ∧ RedBlack t' ∧
      keys t' = keys (plug ctx T) := by
  induction fuel generalizing h ctx T x n with
  | zero => cases hfuel
  | succ fuel ih =>
    obtain ⟨a, A, B, rfl⟩ := exists_red hc.red .left
    obtain rfl : a = x := by simpa using hc.root
    have hparent := hc.toAt.parent
    cases ctx with
    | nil =>
      -- at the root
      have hroot : h.rbh_root = some a := hc.above
      obtain ⟨-, -, hA, hB⟩ := balanced_red.1 hc.balanced
      refine ⟨_, _, ?_, hc.toAt.recolor .black, ⟨rootColor_join, n + 1, ?_⟩, ?_⟩
      · rw [parentKey] at hparent
        simp [rbInsertColor, hparent, hroot]
      · exact balanced_black_succ.2 ⟨hA, hB⟩
      · simp [Bin.join]
    | cons f ctx =>
      obtain ⟨e, ⟨p, c⟩, C⟩ := f
      have hpc : h.rbe_color p = c := (at_cons.1 hc.toAt).color
      cases c with
      | black =>
        -- below a black parent all is in balance
        have hrb : RedBlack (plug (⟨e, (p, .black), C⟩ :: ctx) (Bin.join .left A (a, .red) B)) :=
          redBlack_plug.2 ⟨n, hc.around, hc.balanced, by rintro ⟨⟩⟩
        have hat := at_plug.1 hc.toAt
        have hne : plug (⟨e, (p, .black), C⟩ :: ctx) (Bin.join .left A (a, .red) B) ≠ .nil :=
          plug_ne_nil (by rintro ⟨⟩)
        obtain ⟨root, hroot⟩ := Option.ne_none_iff_exists'.1 fun hn => hne (rootKey_eq_none.1 hn)
        have hhead : h.rbh_root = some root := hat.above.trans hroot
        refine ⟨_, _, ?_, hat.root_black hrb.root, hrb, rfl⟩
        simp [rbInsertColor, hparent, parentKey, hpc, hhead, Head.setColorOf]
      | red =>
        obtain ⟨-, -, habove, -⟩ := hc.around
        cases ctx with
        | nil => cases habove
        | cons f ctx =>
          obtain ⟨d, ⟨g, c⟩, D⟩ := f
          obtain rfl : c = .black := habove
          have hup := at_cons.1 (at_cons.1 hc.toAt)
          have hgparent : h.rbe_parent p = some g := (at_cons.1 hc.toAt).parent
          obtain ⟨h', ctx', T', x', m, hrun, hc', hlen, hkeys⟩ := insertColorSide_spec hc
          simp only [List.length_cons] at hfuel
          obtain ⟨h'', t', hloop, hat', hrb, hkeys'⟩ := ih hc' (by omega)
          refine ⟨h'', t', ?_, hat', hrb, hkeys'.trans hkeys⟩
          have hside := hup.ite_side (hup.root_ne (by cases e <;> rintro ⟨⟩)) fun d => insertColorSide d h a p g
          rw [rootKey_join] at hside
          rw [rbInsertColor]
          simp only [hparent, parentKey, hpc, if_true, hgparent, Option.bind_some]
          rw [hside]
          simp [hrun, hloop]

end OpenbsdKernel.RbTree
