import OpenbsdKernel.Sys.Tree.SplayLoop

/-!
# Splay trees hold what was put in

Every operation keeps a search tree of the elements that were inserted and not removed, whatever
the operations and their order are.
-/
namespace OpenbsdKernel.SplayTree

open BinTree

variable {α : Type*}

/-- The heap holds a search tree. -/
structure IsTree (cmp : α → α → ℤ) (h : Head α) (t : Bin α) : Prop where
  root : h.sph_root = t.root
  holds : Holds h t
  sorted : Sorted cmp t.toList

section Ops

variable {cmp : α → α → ℤ} {h h' : Head α} {t l r : Bin α} {elm x : α} {fuel : ℕ}

theorem Splayed.isTree {comp : α → ℤ} (hs : Splayed comp h t h' l x r) (ht : IsTree cmp h t) :
    IsTree cmp h' (.node l x r) :=
  ⟨hs.root, hs.holds, by rw [Bin.toList_node, hs.toList]; exact ht.sorted⟩

theorem Splayed.mem {comp : α → ℤ} (hs : Splayed comp h t h' l x r) (a : α) :
    a ∈ t.toList ↔ a ∈ l.toList ∨ a = x ∨ a ∈ r.toList := by
  rw [← hs.toList]
  simp

/-- A splay for what is above all elements leaves nothing to the right. -/
theorem Splayed.right_nil {comp : α → ℤ} (hs : Splayed comp h t h' l x r)
    (hpos : ∀ a ∈ t.toList, 0 < comp a) : r = .nil := by
  have hx := hpos x ((hs.mem x).2 (.inr (.inl rfl)))
  obtain hzero | ⟨hlt, -⟩ | ⟨-, hside⟩ := hs.sides
  · omega
  · omega
  · by_contra hne
    obtain ⟨y, hy⟩ := Option.ne_none_iff_exists'.1 fun h => hne (Bin.root_eq_none.1 h)
    have h1 := hside y (Bin.mem_of_root hy)
    have h2 := hpos y ((hs.mem y).2 (.inr (.inr (Bin.mem_of_root hy))))
    omega

theorem Splayed.left_nil {comp : α → ℤ} (hs : Splayed comp h t h' l x r)
    (hneg : ∀ a ∈ t.toList, comp a < 0) : l = .nil := by
  have hx := hneg x ((hs.mem x).2 (.inr (.inl rfl)))
  obtain hzero | ⟨-, hside⟩ | ⟨hgt, -⟩ := hs.sides
  · omega
  · by_contra hne
    obtain ⟨y, hy⟩ := Option.ne_none_iff_exists'.1 fun h => hne (Bin.root_eq_none.1 h)
    have h1 := hside y (Bin.mem_of_root hy)
    have h2 := hneg y ((hs.mem y).2 (.inl (Bin.mem_of_root hy)))
    omega
  · omega

theorem Splayed.equal (hs : Splayed (cmp elm) h t h' l x r) (hc : Comparator cmp)
    (ht : IsTree cmp h t) (y : α) : cmp elm x = 0 ∧ y = x ↔ y ∈ t.toList ∧ cmp elm y = 0 := by
  have hmem := hs.mem
  constructor
  · rintro ⟨hz, rfl⟩
    exact ⟨(hmem y).2 (.inr (.inl rfl)), hz⟩
  · rintro ⟨hy, hz⟩
    have hsteady := hc.steady ht.sorted elm
    rw [← hs.toList] at hsteady
    simp only [Steady, List.pairwise_append, List.pairwise_cons] at hsteady
    have hxz : cmp elm x = 0 := by
      obtain hx | ⟨hx, hl⟩ | ⟨hx, hr⟩ := hs.sides
      · exact hx
      · obtain hy | rfl | hy := (hmem y).1 hy
        · have := hl y hy
          omega
        · exact hz
        · have := (hsteady.2.1.1 y hy).2
          omega
      · obtain hy | rfl | hy := (hmem y).1 hy
        · have := (hsteady.2.2 y hy x (by simp)).1
          omega
        · exact hz
        · have := hr y hy
          omega
    have hyx : cmp y x = 0 := by
      have h1 := hc.trans y elm x (hc.eq_zero.1 hz).le hxz.le
      have h2 := hc.trans x elm y (hc.eq_zero.1 hxz).le hz.le
      have h3 := hc.swap y x
      have h4 := hc.swap x y
      omega
    exact ⟨hxz, ht.sorted.eq_of_cmp hc hy ((hmem x).2 (.inr (.inl rfl))) hyx⟩

/-- What an insertion leaves. -/
structure Inserted (cmp : α → α → ℤ) (l : List α) (elm : α) (h' : Head α) (t' : Bin α)
    (ret : Option α) : Prop extends IsTree cmp h' t' where
  length : t'.toList.length ≤ l.length + 1
  mem : ∀ a, a ∈ t'.toList ↔ a ∈ l ∨ a = elm ∧ ∀ y ∈ l, cmp elm y ≠ 0
  found : ∀ y, ret = some y ↔ y ∈ l ∧ cmp elm y = 0

theorem IsTree.inserted {L R : List α} (ht : IsTree cmp h' t) (hlist : t.toList = L ++ elm :: R)
    (hfresh : ∀ y ∈ L ++ R, cmp elm y ≠ 0) : Inserted cmp (L ++ R) elm h' t none := by
  refine ⟨ht, ?_, ?_, ?_⟩
  · simp [hlist]
    omega
  · intro a
    simp only [hlist, List.mem_append, List.mem_cons]
    constructor
    · rintro (ha | rfl | ha)
      · exact .inl (.inl ha)
      · exact .inr ⟨rfl, fun y hy => hfresh y (List.mem_append.2 hy)⟩
      · exact .inl (.inr ha)
    · rintro ((ha | ha) | ⟨rfl, -⟩)
      · exact .inl ha
      · exact .inr (.inr ha)
      · exact .inr (.inl rfl)
  · exact fun y => ⟨nofun, fun hy => absurd hy.2 (hfresh y hy.1)⟩

/-- What a removal leaves. -/
structure Removed (cmp : α → α → ℤ) (l : List α) (elm : α) (h' : Head α) (t' : Bin α)
    (ret : Option α) : Prop extends IsTree cmp h' t' where
  length : t'.toList.length ≤ l.length
  mem : ∀ a, a ∈ t'.toList ↔ a ∈ l ∧ cmp elm a ≠ 0
  found : ∀ y, ret = some y ↔ y = elm ∧ ∃ z ∈ l, cmp elm z = 0

theorem IsTree.removed (ht : IsTree cmp h' t) {L R : List α} (hlist : t.toList = L ++ R)
    (hL : ∀ a ∈ L, 0 < cmp elm a) (hx : cmp elm x = 0) (hR : ∀ b ∈ R, cmp elm b < 0) :
    Removed cmp (L ++ x :: R) elm h' t (some elm) := by
  refine ⟨ht, ?_, ?_, ?_⟩
  · simp only [hlist, List.length_append, List.length_cons]
    omega
  · intro a
    simp only [hlist, List.mem_append, List.mem_cons]
    constructor
    · rintro (ha | ha)
      · exact ⟨.inl ha, (hL a ha).ne'⟩
      · exact ⟨.inr (.inr ha), (hR a ha).ne⟩
    · rintro ⟨ha | rfl | ha, hne⟩
      · exact .inl ha
      · exact absurd hx hne
      · exact .inr ha
  · intro y
    rw [Option.some_inj]
    exact ⟨fun h => ⟨h.symm, x, by simp, hx⟩, fun h => h.1.symm⟩

variable [DecidableEq α]

theorem IsTree.splay (hc : Comparator cmp) (ht : IsTree cmp h t) (hne : t ≠ .nil)
    (hfuel : t.toList.length ≤ fuel) (elm : α) :
    ∃ h' l x r, SplayTree.splay cmp fuel h elm = some h' ∧ Splayed (cmp elm) h t h' l x r :=
  splayWith_splayed fuel ht.root ht.holds (ht.sorted.nodup hc) hne (hc.steady ht.sorted elm)
    hfuel

theorem splayFind_spec (hc : Comparator cmp) (ht : IsTree cmp h t) (hfuel : t.toList.length ≤ fuel)
    (elm : α) : ∃ h' t' ret, splayFind cmp fuel h elm = some (h', ret) ∧ IsTree cmp h' t' ∧
      t'.toList = t.toList ∧ ∀ y, ret = some y ↔ y ∈ t.toList ∧ cmp elm y = 0 := by
  by_cases hne : t = .nil
  · refine ⟨h, t, none, ?_, ht, rfl, by simp [hne]⟩
    simp [splayFind, ht.root, hne]
  · obtain ⟨h', l, x, r, hsplay, hs⟩ := ht.splay hc hne hfuel elm
    have hroot : h.sph_root ≠ none := fun hn => hne (Bin.root_eq_none.1 (ht.root ▸ hn))
    refine ⟨h', .node l x r, if cmp elm x = 0 then some x else none, ?_, hs.isTree ht, hs.toList, ?_⟩
    · simp [splayFind, hroot, hsplay, hs.root]
    · intro y
      rw [← hs.equal hc ht y]
      split
      · next hz => simp [hz, eq_comm]
      · next hz => simp [hz]

theorem Holds.insert {d : Dir} (hh : Holds h (Bin.join d l x r)) (hnodup : (Bin.join d l x r).toList.Nodup)
    (helm : elm ∉ (Bin.join d l x r).toList) :
    Holds (((h.set d (.elm elm) (h.spe d (.elm x))).set d.swap (.elm elm) (some x)).set d (.elm x) none)
      (Bin.join d l elm (Bin.join d .nil x r)) := by
  obtain ⟨hd, hswap, hl, hr⟩ := holds_join.1 hh
  obtain ⟨-, -, hxl, hxr, -⟩ := Bin.nodup_join.1 hnodup
  simp only [Bin.mem_join, not_or] at helm
  have hne : Cell.elm elm ≠ .elm x := by
    rintro ⟨⟩
    exact helm.2.1 rfl
  have hnot : ∀ {u : Bin α} {b : α}, b ∉ u.toList → ∀ a ∈ u.toList, Cell.elm b ≠ .elm a := by
    rintro u b hb a ha ⟨⟩
    exact hb ha
  refine holds_join.2 ⟨?_, ?_, ?_, holds_join.2 ⟨?_, ?_, trivial, ?_⟩⟩
  · rw [set_ne hne, set_dir (Dir.ne_swap d), set_same, hd]
  · rw [set_ne hne, set_same, Bin.root_join]
  · exact ((hl.set (hnot helm.1)).set (hnot helm.1)).set (hnot hxl)
  · rw [set_same, Bin.root_nil]
  · rw [set_dir (Dir.swap_ne d), set_ne hne.symm, set_ne hne.symm, hswap]
  · exact ((hr.set (hnot helm.2.2)).set (hnot helm.2.2)).set (hnot hxr)

theorem splayInsert_spec (hc : Comparator cmp) (ht : IsTree cmp h t) (hfuel : t.toList.length ≤ fuel)
    (elm : α) : ∃ h' t' ret, splayInsert cmp fuel h elm = some (h', ret) ∧
      Inserted cmp t.toList elm h' t' ret := by
  by_cases hne : t = .nil
  · refine ⟨_, .node .nil elm .nil, none, if_pos (by simp [ht.root, hne]), ?_⟩
    rw [hne]
    refine IsTree.inserted (L := []) (R := []) ⟨rfl, ⟨?_, ?_, trivial, trivial⟩, ?_⟩ rfl (by simp)
    · simp [Head.set]
    · simp [Head.set]
    · simp [Sorted]
  obtain ⟨h', l, x, r, hsplay, hs⟩ := ht.splay hc hne hfuel elm
  have hroot : h.sph_root ≠ none := fun hn => hne (Bin.root_eq_none.1 (ht.root ▸ hn))
  have htree := hs.isTree ht
  have hnodup := htree.sorted.nodup hc
  have hsteady := hc.steady htree.sorted elm
  have hequal := hs.equal hc ht
  by_cases hz : cmp elm x = 0
  · refine ⟨h', .node l x r, some x, ?_, htree, ?_, ?_, ?_⟩
    · simp [splayInsert, hroot, hsplay, hs.root, hz]
    · rw [Bin.toList_node, hs.toList]
      omega
    · intro a
      have hx := (hequal x).1 ⟨hz, rfl⟩
      rw [Bin.toList_node, hs.toList]
      refine ⟨.inl, fun ha => ha.resolve_right ?_⟩
      exact fun ha => ha.2 x hx.1 hz
    · intro y
      rw [← hequal y]
      simp [hz, eq_comm]
  -- no element has the place of the new one
  have hfresh : ∀ y ∈ t.toList, cmp elm y ≠ 0 := fun y hy hzy => hz ((hequal y).2 ⟨hy, hzy⟩).1
  have hnew : elm ∉ (Bin.node l x r).toList := by
    rw [Bin.toList_node, hs.toList]
    exact fun hmem => hfresh elm hmem (hc.self elm)
  have hsorted := htree.sorted
  rw [← hs.toList] at hfresh
  rw [← hs.toList]
  simp only [Steady, Bin.toList_node, List.pairwise_append, List.pairwise_cons] at hsteady
  obtain hzero | ⟨hlt, hside⟩ | ⟨hgt, hside⟩ := hs.sides
  · exact absurd hzero hz
  · have hholds := Holds.insert (d := .left) hs.holds hnodup hnew
    set h'' := ((h'.set .left (.elm elm) (h'.spe .left (.elm x))).set .right (.elm elm) (some x)).set
      .left (.elm x) none
    refine ⟨⟨h''.spe, some elm⟩, .node l elm (.node .nil x r), none, ?_, IsTree.inserted
      ⟨rfl, hholds.congr fun _ _ _ => rfl, ?_⟩ (by simp) hfresh⟩
    · simp only [splayInsert, hroot, if_false, hsplay, Option.bind_some, hs.root, Option.map_some,
        if_pos hlt]
      rfl
    · refine Sorted.insert hsorted hc hside fun b hb => ?_
      obtain rfl | hb := List.mem_cons.1 hb
      · exact hlt
      · exact (hsteady.2.1.1 b hb).1 hlt.le
  · have hassoc : l.toList ++ x :: r.toList = (l.toList ++ [x]) ++ r.toList := by simp
    rw [hassoc] at hfresh ⊢
    rw [Bin.toList_node, hassoc] at hsorted
    have hholds := Holds.insert (d := .right) hs.holds hnodup hnew
    set h'' := ((h'.set .right (.elm elm) (h'.spe .right (.elm x))).set .left (.elm elm) (some x)).set
      .right (.elm x) none
    refine ⟨⟨h''.spe, some elm⟩, .node (.node l x .nil) elm r, none, ?_, IsTree.inserted
      ⟨rfl, hholds.congr fun _ _ _ => rfl, ?_⟩ (by simp) hfresh⟩
    · simp only [splayInsert, hroot, if_false, hsplay, Option.bind_some, hs.root, Option.map_some,
        if_neg hgt.not_gt, if_pos hgt]
      rfl
    · refine Sorted.insert hsorted hc (fun a ha => ?_) hside
      obtain ha | ha := List.mem_append.1 ha
      · exact (hsteady.2.2 a ha x (by simp)).2 hgt.le
      · rw [List.mem_singleton.1 ha]
        exact hgt

theorem splayRemove_spec (hc : Comparator cmp) (ht : IsTree cmp h t) (hfuel : t.toList.length ≤ fuel)
    (elm : α) : ∃ h' t' ret, splayRemove cmp fuel h elm = some (h', ret) ∧
      Removed cmp t.toList elm h' t' ret := by
  by_cases hne : t = .nil
  · refine ⟨h, t, none, if_pos (by simp [ht.root, hne]), ht, le_rfl, ?_, ?_⟩
    · simp [hne]
    · simp [hne]
  obtain ⟨h', l, x, r, hsplay, hs⟩ := ht.splay hc hne hfuel elm
  have hroot : h.sph_root ≠ none := fun hn => hne (Bin.root_eq_none.1 (ht.root ▸ hn))
  have htree := hs.isTree ht
  have hequal := hs.equal hc ht
  by_cases hz : cmp elm x = 0
  swap
  · have hfresh : ∀ y ∈ t.toList, cmp elm y ≠ 0 := fun y hy hzy => hz ((hequal y).2 ⟨hy, hzy⟩).1
    refine ⟨h', .node l x r, none, ?_, htree, ?_, ?_, ?_⟩
    · simp [splayRemove, hroot, hsplay, hs.root, hz]
    · rw [Bin.toList_node, hs.toList]
    · intro a
      rw [Bin.toList_node, hs.toList]
      exact ⟨fun ha => ⟨ha, hfresh a ha⟩, fun ha => ha.1⟩
    · exact fun y => ⟨nofun, fun ⟨_, z, hmem, hzero⟩ => absurd hzero (hfresh z hmem)⟩
  have hsteady := hc.steady htree.sorted elm
  simp only [Steady, Bin.toList_node, List.pairwise_append, List.pairwise_cons] at hsteady
  have hL : ∀ a ∈ l.toList, 0 < cmp elm a := fun a ha => (hsteady.2.2 a ha x (by simp)).2 hz.ge
  have hR : ∀ b ∈ r.toList, cmp elm b < 0 := fun b hb => (hsteady.2.1.1 b hb).1 hz.le
  obtain ⟨hxl, hxr, hl, hr⟩ := hs.holds
  obtain ⟨hsortl, hsortr, hcross⟩ := sorted_append.1 htree.sorted
  rw [sorted_cons] at hsortr
  have hsorted : Sorted cmp (l.toList ++ r.toList) :=
    sorted_append.2 ⟨hsortl, hsortr.2, fun a ha b hb => hcross a ha b (by simp [hb])⟩
  rw [← hs.toList]
  by_cases hnil : l = .nil
  · have hkept : IsTree cmp ⟨h'.spe, r.root⟩ r := ⟨rfl, hr.congr fun _ _ _ => rfl, hsortr.2⟩
    refine ⟨_, r, some elm, ?_, hkept.removed (by simp [hnil]) hL hz hR⟩
    simp [splayRemove, hroot, hsplay, hs.root, hz, hxl, hxr, hnil]
  · -- the left side is splayed again: all of it is smaller, so its right side is free
    have hfuel' : l.toList.length ≤ fuel := by
      rw [← hs.toList, List.length_append] at hfuel
      omega
    have htreel : IsTree cmp ⟨h'.spe, l.root⟩ l := ⟨rfl, hl.congr fun _ _ _ => rfl, hsortl⟩
    obtain ⟨h'', l', y, r', hsplay', hs'⟩ := htreel.splay hc hnil hfuel' elm
    obtain rfl := hs'.right_nil hL
    have hlist : l'.toList ++ [y] = l.toList := hs'.toList
    have hnot : ∀ a ∈ r.toList, a ∉ l.toList := by
      intro a ha hal
      have h1 := hL a hal
      have h2 := hR a ha
      omega
    have hr' : Holds h'' r := hr.congr fun e a ha => hs'.frame e a (hnot a ha)
    obtain ⟨hyl, -, hl', -⟩ := hs'.holds
    have hnodup : y ∉ l'.toList := by
      have hnd := hsortl.nodup hc
      rw [← hlist, List.nodup_append] at hnd
      exact fun hy => hnd.2.2 y hy y (by simp) rfl
    have hglue : (Bin.node l' y r).toList = l.toList ++ r.toList := by simp [← hlist]
    have hkept : IsTree cmp (h''.set .right (.elm y) r.root) (.node l' y r) := by
      refine ⟨hs'.root, ⟨?_, set_same _ _ _ _, hl'.set ?_, hr'.set ?_⟩, hglue ▸ hsorted⟩
      · rw [set_dir (by rintro ⟨⟩), hyl]
      · rintro a ha ⟨⟩
        exact hnodup ha
      · rintro a ha ⟨⟩
        exact hnot y ha (by simp [← hlist])
    refine ⟨_, _, some elm, ?_, hkept.removed hglue hL hz hR⟩
    have hlroot : l.root ≠ none := fun h => hnil (Bin.root_eq_none.1 h)
    simp [splayRemove, hroot, hsplay, hs.root, hz, hxl, hlroot, hsplay', hs'.root, hxr]

theorem splayMin_spec (hc : Comparator cmp) (ht : IsTree cmp h t) (hfuel : t.toList.length ≤ fuel) :
    ∃ h' t' ret, splayMin fuel h = some (h', ret) ∧ IsTree cmp h' t' ∧ t'.toList = t.toList ∧
      ∀ y, ret = some y ↔ y ∈ t.toList ∧ ∀ a ∈ t.toList, cmp y a ≤ 0 := by
  by_cases hne : t = .nil
  · exact ⟨h, t, none, if_pos (by simp [ht.root, hne]), ht, rfl, by simp [hne]⟩
  have hroot : h.sph_root ≠ none := fun hn => hne (Bin.root_eq_none.1 (ht.root ▸ hn))
  obtain ⟨h', l, x, r, hsplay, hs⟩ := splayWith_splayed fuel ht.root ht.holds (ht.sorted.nodup hc) hne
    (steady_const (show (-1 : ℤ) ≠ 0 by decide) _) hfuel
  obtain rfl := hs.left_nil (by simp)
  have htree := hs.isTree ht
  refine ⟨h', _, some x, ?_, htree, hs.toList, ?_⟩
  · simp [splayMin, SPLAY_NEGINF, splayMinMax, splayMinmax, hroot, hsplay, hs.root]
  · have hleast : ∀ a ∈ t.toList, cmp x a ≤ 0 := by
      intro a ha
      obtain ha | rfl | ha := (hs.mem a).1 ha
      · cases ha
      · exact (hc.self a).le
      · exact ((sorted_cons.1 htree.sorted).1 a ha).le
    exact ht.sorted.least_iff hc ((hs.mem x).2 (.inr (.inl rfl))) hleast

theorem splayMax_spec (hc : Comparator cmp) (ht : IsTree cmp h t) (hfuel : t.toList.length ≤ fuel) :
    ∃ h' t' ret, splayMax fuel h = some (h', ret) ∧ IsTree cmp h' t' ∧ t'.toList = t.toList ∧
      ∀ y, ret = some y ↔ y ∈ t.toList ∧ ∀ a ∈ t.toList, cmp a y ≤ 0 := by
  by_cases hne : t = .nil
  · exact ⟨h, t, none, if_pos (by simp [ht.root, hne]), ht, rfl, by simp [hne]⟩
  have hroot : h.sph_root ≠ none := fun hn => hne (Bin.root_eq_none.1 (ht.root ▸ hn))
  obtain ⟨h', l, x, r, hsplay, hs⟩ := splayWith_splayed fuel ht.root ht.holds (ht.sorted.nodup hc) hne
    (steady_const (show (1 : ℤ) ≠ 0 by decide) _) hfuel
  obtain rfl := hs.right_nil (by simp)
  have htree := hs.isTree ht
  refine ⟨h', _, some x, ?_, htree, hs.toList, ?_⟩
  · simp [splayMax, SPLAY_INF, splayMinMax, splayMinmax, hroot, hsplay, hs.root]
  · have hgreatest : ∀ a ∈ t.toList, cmp a x ≤ 0 := by
      intro a ha
      obtain ha | rfl | ha := (hs.mem a).1 ha
      · exact ((sorted_append.1 htree.sorted).2.2 a ha x (by simp)).le
      · exact (hc.self a).le
      · cases ha
    exact ht.sorted.greatest_iff hc ((hs.mem x).2 (.inr (.inl rfl))) hgreatest

end Ops

inductive Op (α : Type*)
  | insert (elm : α)
  | remove (elm : α)
  | find (elm : α)
  | min
  | max
  deriving DecidableEq, Repr

section Runs

variable (cmp : α → α → ℤ)

/-- What is in the tree after the operation. -/
def Op.contents (S : Set α) : Op α → Set α
  | .insert elm => {a | a ∈ S ∨ a = elm ∧ ∀ y ∈ S, cmp elm y ≠ 0}
  | .remove elm => {a | a ∈ S ∧ cmp elm a ≠ 0}
  | .find _ | .min | .max => S

/-- What the operation has to return. -/
def Op.Returns (S : Set α) (ret : Option α) : Op α → Prop
  | .insert elm => ∀ y, ret = some y ↔ y ∈ S ∧ cmp elm y = 0
  | .remove elm => ∀ y, ret = some y ↔ y = elm ∧ ∃ z ∈ S, cmp elm z = 0
  | .find elm => ∀ y, ret = some y ↔ y ∈ S ∧ cmp elm y = 0
  | .min => ∀ y, ret = some y ↔ y ∈ S ∧ ∀ a ∈ S, cmp y a ≤ 0
  | .max => ∀ y, ret = some y ↔ y ∈ S ∧ ∀ a ∈ S, cmp a y ≤ 0

/-- What a run has to return, from the contents `S` on. -/
def Returned : Set α → List (Op α) → List (Option α) → Prop
  | _, [], [] => True
  | S, op :: ops, ret :: rets => op.Returns cmp S ret ∧ Returned (op.contents cmp S) ops rets
  | _, _, _ => False

variable [DecidableEq α] (fuel : ℕ)

def Op.exec (h : Head α) : Op α → Option (Head α × Option α)
  | .insert elm => splayInsert cmp fuel h elm
  | .remove elm => splayRemove cmp fuel h elm
  | .find elm => splayFind cmp fuel h elm
  | .min => splayMin fuel h
  | .max => splayMax fuel h

def run : Head α → List (Op α) → Option (Head α × List (Option α))
  | h, [] => some (h, [])
  | h, op :: ops =>
    (op.exec cmp fuel h).bind fun (h, ret) => (run h ops).map fun (h, rets) => (h, ret :: rets)

variable {cmp} {fuel} {h : Head α} {t : Bin α}

theorem Op.exec_spec (hc : Comparator cmp) (ht : IsTree cmp h t) (hfuel : t.toList.length ≤ fuel)
    (op : Op α) : ∃ h' t' ret, op.exec cmp fuel h = some (h', ret) ∧ IsTree cmp h' t' ∧
      t'.toList.length ≤ t.toList.length + 1 ∧
      {a | a ∈ t'.toList} = op.contents cmp {a | a ∈ t.toList} ∧
      op.Returns cmp {a | a ∈ t.toList} ret := by
  -- looking does not change the elements or their order
  have hlook : ∀ {t' : Bin α}, t'.toList = t.toList →
      t'.toList.length ≤ t.toList.length + 1 ∧ {a | a ∈ t'.toList} = {a | a ∈ t.toList} := by
    intro t' heq
    rw [heq]
    exact ⟨Nat.le_succ _, rfl⟩
  cases op with
  | insert elm =>
    obtain ⟨h', t', ret, hrun, hi⟩ := splayInsert_spec hc ht hfuel elm
    exact ⟨h', t', ret, hrun, hi.toIsTree, hi.length, Set.ext hi.mem, hi.found⟩
  | remove elm =>
    obtain ⟨h', t', ret, hrun, hr⟩ := splayRemove_spec hc ht hfuel elm
    exact ⟨h', t', ret, hrun, hr.toIsTree, Nat.le_succ_of_le hr.length, Set.ext hr.mem, hr.found⟩
  | find elm =>
    obtain ⟨h', t', ret, hrun, ht', hlist, hret⟩ := splayFind_spec hc ht hfuel elm
    exact ⟨h', t', ret, hrun, ht', (hlook hlist).1, (hlook hlist).2, hret⟩
  | min =>
    obtain ⟨h', t', ret, hrun, ht', hlist, hret⟩ := splayMin_spec hc ht hfuel
    exact ⟨h', t', ret, hrun, ht', (hlook hlist).1, (hlook hlist).2, hret⟩
  | max =>
    obtain ⟨h', t', ret, hrun, ht', hlist, hret⟩ := splayMax_spec hc ht hfuel
    exact ⟨h', t', ret, hrun, ht', (hlook hlist).1, (hlook hlist).2, hret⟩

theorem run_isTree (hc : Comparator cmp) (ops : List (Op α)) (ht : IsTree cmp h t)
    (hfuel : t.toList.length + ops.length ≤ fuel) :
    ∃ h' t' rets, run cmp fuel h ops = some (h', rets) ∧ IsTree cmp h' t' ∧
      t'.toList.length ≤ fuel ∧
      {a | a ∈ t'.toList} = ops.foldl (Op.contents cmp) {a | a ∈ t.toList} ∧
      Returned cmp {a | a ∈ t.toList} ops rets := by
  induction ops generalizing h t with
  | nil => exact ⟨h, t, [], rfl, ht, hfuel, rfl, trivial⟩
  | cons op ops ih =>
    rw [List.length_cons] at hfuel
    have hroom : t.toList.length ≤ fuel := by omega
    obtain ⟨h₁, t₁, ret, hexec, ht₁, hlen, hmem, hret⟩ := op.exec_spec hc ht hroom
    obtain ⟨h₂, t₂, rets, hrun, ht₂, hlen₂, hmem₂, hrets⟩ := ih ht₁ (by omega)
    rw [hmem] at hmem₂ hrets
    refine ⟨h₂, t₂, ret :: rets, ?_, ht₂, hlen₂, hmem₂, hret, hrets⟩
    simp [run, hexec, hrun]

/-- Whatever operations are done in whatever order, none of them fails to end or follows a `NULL`
pointer; afterwards the links are those of a search tree of what was inserted and not removed,
every operation returned what it has to, and a splay keeps the elements in their order. -/
theorem splay_run (hc : Comparator cmp) (spe : Dir → Cell α → Option α) (ops : List (Op α))
    (fuel : ℕ) (hfuel : ops.length ≤ fuel) :
    ∃ h t rets, run cmp fuel (splayInit spe) ops = some (h, rets) ∧ IsTree cmp h t ∧
      {a | a ∈ t.toList} = ops.foldl (Op.contents cmp) ∅ ∧ Returned cmp ∅ ops rets ∧
      (t ≠ .nil → ∀ elm, ∃ h' t', splay cmp fuel h elm = some h' ∧ IsTree cmp h' t' ∧
        t'.toList = t.toList) := by
  have hinit : IsTree cmp (splayInit spe) .nil := ⟨rfl, trivial, List.Pairwise.nil⟩
  have hempty : {a | a ∈ (Bin.nil : Bin α).toList} = ∅ := by simp
  obtain ⟨h, t, rets, hrun, ht, hlen, hmem, hrets⟩ := run_isTree hc ops hinit (by simpa using hfuel)
  rw [hempty] at hmem hrets
  refine ⟨h, t, rets, hrun, ht, hmem, hrets, fun hne elm => ?_⟩
  obtain ⟨h', l, x, r, hsplay, hs⟩ := ht.splay hc hne hlen elm
  exact ⟨h', .node l x r, hsplay, hs.isTree ht, hs.toList⟩

end Runs

theorem splay_run_three :
    ∃ h t rets, run (fun a b : ℤ => a - b) 3 (splayInit fun _ _ => some 7)
        [.insert 5, .insert 3, .remove 5] = some (h, rets) ∧ IsTree (fun a b : ℤ => a - b) h t ∧
      {a | a ∈ t.toList} =
        [Op.insert 5, .insert 3, .remove 5].foldl (Op.contents fun a b : ℤ => a - b) ∅ ∧
      Returned (fun a b : ℤ => a - b) ∅ [.insert 5, .insert 3, .remove 5] rets ∧
      (t ≠ .nil → ∀ elm, ∃ h' t', splay (fun a b : ℤ => a - b) 3 h elm = some h' ∧
        IsTree (fun a b : ℤ => a - b) h' t' ∧ t'.toList = t.toList) :=
  splay_run Comparator.sub _ _ 3 (by decide)

end OpenbsdKernel.SplayTree
