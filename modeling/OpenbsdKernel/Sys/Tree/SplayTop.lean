import OpenbsdKernel.Sys.Tree.Splay

/-!
# Splaying from the top

While the loop goes down, the elements are a middle tree and two spines: links to the right from
the node on the stack lead through what is smaller, links to the left through what is greater.
What is read off these three in order never changes.
-/
namespace OpenbsdKernel.SplayTree

open BinTree

variable {α : Type*}

/-- The links of a tree are those of the heap. -/
def Holds (h : Head α) : Bin α → Prop
  | .nil => True
  | .node l a r => h.spe .left (.elm a) = l.root ∧ h.spe .right (.elm a) = r.root ∧
      Holds h l ∧ Holds h r

/-- A spine: links to side `d` from the cell `c`, past elements with a tree at their other side,
to the cell `e`. -/
def Spine (h : Head α) (d : Dir) : Cell α → List (α × Bin α) → Cell α → Prop
  | c, [], e => c = e
  | c, (a, s) :: rest, e => h.spe d c = some a ∧ h.spe d.swap (.elm a) = s.root ∧ Holds h s ∧
      Spine h d (.elm a) rest e

/-- The elements of a spine. -/
def elements : List (α × Bin α) → List α
  | [] => []
  | (a, s) :: rest => a :: (s.toList ++ elements rest)

example (a : α) (s : Bin α) : elements [(a, s)] = a :: s.toList := by simp [elements]

/-- The tree that a spine makes with a tree at its end. -/
def closed (d : Dir) : List (α × Bin α) → Bin α → Bin α
  | [], t => t
  | (a, s) :: rest, t => Bin.join d (closed d rest t) a s

section Links

variable {h h' : Head α} {d : Dir} {a x : α} {c e f : Cell α} {t u : Bin α} {ctx : List (α × Bin α)}

theorem holds_join : Holds h (Bin.join d t a u) ↔
    h.spe d (.elm a) = t.root ∧ h.spe d.swap (.elm a) = u.root ∧ Holds h t ∧ Holds h u := by
  cases d with
  | left => rfl
  | right =>
    simp only [Bin.join, Holds, Dir.swap]
    tauto

theorem Holds.congr (ht : Holds h t)
    (heq : ∀ e, ∀ a ∈ t.toList, h'.spe e (.elm a) = h.spe e (.elm a)) : Holds h' t := by
  induction t with
  | nil => trivial
  | node l a r ihl ihr =>
    obtain ⟨h1, h2, hl, hr⟩ := ht
    refine ⟨?_, ?_, ihl hl ?_, ihr hr ?_⟩
    · rw [heq _ a (by simp), h1]
    · rw [heq _ a (by simp), h2]
    · exact fun e b hb => heq e b (by simp [hb])
    · exact fun e b hb => heq e b (by simp [hb])

theorem Spine.of_spe (hs : Spine h d c ctx f) (heq : h'.spe = h.spe) : Spine h' d c ctx f := by
  induction ctx generalizing c with
  | nil => exact hs
  | cons p ctx ih =>
    obtain ⟨a, s⟩ := p
    obtain ⟨h1, h2, h3, hrest⟩ := hs
    exact ⟨heq ▸ h1, heq ▸ h2, h3.congr fun e b _ => by rw [heq], ih hrest⟩

theorem Spine.last (hs : Spine h d c ctx f) : f = c ∨ ∃ p ∈ ctx, f = .elm p.1 := by
  induction ctx generalizing c with
  | nil => exact .inl hs.symm
  | cons p ctx ih =>
    obtain ⟨a, s⟩ := p
    obtain rfl | ⟨q, hq, rfl⟩ := ih hs.2.2.2
    · exact .inr ⟨(a, s), by simp, rfl⟩
    · exact .inr ⟨q, by simp [hq], rfl⟩

theorem mem_elements {p : α × Bin α} (hp : p ∈ ctx) :
    p.1 ∈ elements ctx ∧ ∀ b ∈ p.2.toList, b ∈ elements ctx := by
  induction ctx with
  | nil => simp at hp
  | cons q ctx ih =>
    obtain ⟨a, s⟩ := q
    obtain rfl | hp := List.mem_cons.1 hp
    · exact ⟨by simp [elements], fun b hb => by simp [elements, hb]⟩
    · obtain ⟨h1, h2⟩ := ih hp
      exact ⟨by simp [elements, h1], fun b hb => by simp [elements, h2 b hb]⟩

/-- The elements that links lead through are not in the trees beside them. -/
theorem not_mem_side {p q : α × Bin α} (hnodup : (elements ctx).Nodup) (hp : p ∈ ctx) (hq : q ∈ ctx) :
    p.1 ∉ q.2.toList := by
  induction ctx with
  | nil => simp at hp
  | cons r ctx ih =>
    obtain ⟨a, s⟩ := r
    simp only [elements, List.nodup_cons, List.nodup_append, List.mem_append, not_or] at hnodup
    obtain rfl | hp := List.mem_cons.1 hp
    · obtain rfl | hq := List.mem_cons.1 hq
      · exact hnodup.1.1
      · exact fun hmem => hnodup.1.2 ((mem_elements hq).2 _ hmem)
    · obtain rfl | hq := List.mem_cons.1 hq
      · exact fun hmem => hnodup.2.2.2 _ hmem _ (mem_elements hp).1 rfl
      · exact ih hnodup.2.2.1 hp hq

/-- The last cell of a spine that begins at the stack is not in the trees beside it. -/
theorem Spine.last_side (hs : Spine h d .stack ctx f) (hnodup : (elements ctx).Nodup)
    {p : α × Bin α} (hp : p ∈ ctx) : ∀ a ∈ p.2.toList, f ≠ .elm a := by
  intro a ha heq
  obtain hstack | ⟨q, hq, hf⟩ := hs.last
  · rw [hstack] at heq
    cases heq
  · rw [hf] at heq
    cases heq
    exact not_mem_side hnodup hq hp ha

/-- What a spine reads: the links to its side of its cells but the last, and the trees. -/
theorem Spine.congr (hs : Spine h d c ctx f) (hnodup : (elements ctx).Nodup)
    (hc : ∀ a ∈ elements ctx, c ≠ .elm a)
    (hspine : ∀ g, g ≠ f → g = c ∨ (∃ p ∈ ctx, g = .elm p.1) → h'.spe d g = h.spe d g)
    (hside : ∀ p ∈ ctx, h'.spe d.swap (.elm p.1) = h.spe d.swap (.elm p.1))
    (htree : ∀ p ∈ ctx, Holds h p.2 → Holds h' p.2) : Spine h' d c ctx f := by
  induction ctx generalizing c with
  | nil => exact hs
  | cons p ctx ih =>
    obtain ⟨a, s⟩ := p
    obtain ⟨h1, h2, h3, hrest⟩ := hs
    simp only [elements, List.nodup_cons, List.nodup_append, List.mem_append, List.mem_cons,
      not_or] at hnodup hc
    have hcf : c ≠ f := by
      obtain rfl | ⟨q, hq, rfl⟩ := hrest.last
      · exact hc a (.inl rfl)
      · exact hc q.1 (.inr (.inr (mem_elements hq).1))
    refine ⟨?_, ?_, htree (a, s) (by simp) h3, ih hrest hnodup.2.2.1 ?_ ?_ ?_ ?_⟩
    · rw [hspine c hcf (.inl rfl), h1]
    · rw [hside (a, s) (by simp), h2]
    · intro b hb heq
      cases heq
      exact hnodup.1.2 hb
    · intro g hg hor
      refine hspine g hg (.inr ?_)
      obtain hor | ⟨q, hq, hor⟩ := hor
      · exact ⟨(a, s), by simp, hor⟩
      · exact ⟨q, by simp [hq], hor⟩
    · exact fun q hq => hside q (by simp [hq])
    · exact fun q hq => htree q (by simp [hq])

theorem Spine.concat (hs : Spine h d c ctx f) (hlink : h.spe d f = some x)
    (hside : h.spe d.swap (.elm x) = u.root) (hu : Holds h u) :
    Spine h d c (ctx ++ [(x, u)]) (.elm x) := by
  induction ctx generalizing c with
  | nil =>
    obtain rfl : c = f := hs
    exact ⟨hlink, hside, hu, rfl⟩
  | cons p ctx ih =>
    obtain ⟨a, s⟩ := p
    exact ⟨hs.1, hs.2.1, hs.2.2.1, ih hs.2.2.2⟩

theorem Spine.closed (hs : Spine h d c ctx f) (hlink : h.spe d f = t.root) (ht : Holds h t) :
    h.spe d c = (closed d ctx t).root ∧ Holds h (SplayTree.closed d ctx t) := by
  induction ctx generalizing c with
  | nil =>
    obtain rfl : c = f := hs
    exact ⟨hlink, ht⟩
  | cons p ctx ih =>
    obtain ⟨a, s⟩ := p
    obtain ⟨h1, h2, h3, hrest⟩ := hs
    obtain ⟨hroot, hholds⟩ := ih hrest
    exact ⟨by simp [SplayTree.closed, h1], holds_join.2 ⟨hroot, h2, hholds, h3⟩⟩

theorem elements_concat (ctx : List (α × Bin α)) (x : α) (u : Bin α) :
    elements (ctx ++ [(x, u)]) = elements ctx ++ x :: u.toList := by
  induction ctx with
  | nil => simp [elements]
  | cons p ctx ih =>
    obtain ⟨a, s⟩ := p
    simp [elements, ih]

theorem mem_closed {b : α} : b ∈ (SplayTree.closed d ctx t).toList ↔ b ∈ elements ctx ∨ b ∈ t.toList := by
  induction ctx with
  | nil => simp [SplayTree.closed, elements]
  | cons p ctx ih =>
    obtain ⟨a, s⟩ := p
    simp only [SplayTree.closed, Bin.mem_join, ih, elements, List.mem_cons, List.mem_append]
    tauto

end Links

section Writes

variable [DecidableEq α] {h : Head α} {d e : Dir} {a : α} {c f g : Cell α} {v : Option α} {t : Bin α}
  {ctx : List (α × Bin α)}

@[simp] theorem set_same (h : Head α) (d : Dir) (c : Cell α) (v : Option α) :
    (h.set d c v).spe d c = v := by simp [Head.set]

theorem set_dir (hne : e ≠ d) : (h.set d c v).spe e f = h.spe e f := by
  simp [Head.set, hne]

theorem set_ne (hne : f ≠ c) : (h.set d c v).spe e f = h.spe e f := by
  simp [Head.set, hne]

theorem Holds.set (ht : Holds h t) (hc : ∀ a ∈ t.toList, c ≠ .elm a) : Holds (h.set d c v) t :=
  ht.congr fun _ a ha => set_ne (hc a ha).symm

theorem Spine.set_last (hs : Spine h d .stack ctx f) (hnodup : (elements ctx).Nodup) :
    Spine (h.set d f v) d .stack ctx f :=
  hs.congr hnodup (by simp) (fun _ hg _ => set_ne hg) (fun _ _ => set_dir (Dir.swap_ne d))
    fun _ hp hq => hq.set (hs.last_side hnodup hp)

/-- A link of a cell that is not of the spine, or of the stack to the other side, is written. -/
theorem Spine.set_apart (hs : Spine h d .stack ctx f) (hnodup : (elements ctx).Nodup)
    (hg : ∀ a ∈ elements ctx, g ≠ .elm a) (hd : g = .stack → e ≠ d) :
    Spine (h.set e g v) d .stack ctx f := by
  refine hs.congr hnodup (by simp) ?_ ?_ ?_
  · intro c _ hor
    by_cases hcg : c = g
    · obtain rfl | ⟨p, hp, rfl⟩ := hor
      · exact set_dir (hd hcg.symm).symm
      · exact absurd hcg.symm (hg p.1 (mem_elements hp).1)
    · exact set_ne hcg
  · exact fun p hp => set_ne (hg p.1 (mem_elements hp).1).symm
  · exact fun p hp hq => hq.set fun a ha => hg a ((mem_elements hp).2 a ha)

end Writes

/-- The elements between two spines and the middle. -/
structure Split (s : State α) (mid : Bin α) (S : Dir → List (α × Bin α)) : Prop where
  root : s.head.sph_root = mid.root
  holds : Holds s.head mid
  spine : ∀ d, Spine s.head d .stack (S d) (s.last d)
  nodupMid : mid.toList.Nodup
  nodupSpine : ∀ d, (elements (S d)).Nodup
  apart : ∀ d, ∀ a ∈ elements (S d), a ∉ mid.toList
  cross : ∀ d, ∀ a ∈ elements (S d), a ∉ elements (S d.swap)

/-- What is smaller than the middle. -/
def before : List (α × Bin α) → List α
  | [] => []
  | (a, s) :: rest => s.toList ++ a :: before rest

/-- What is greater than the middle. -/
def after : List (α × Bin α) → List α
  | [] => []
  | (a, s) :: rest => after rest ++ a :: s.toList

def whole (mid : Bin α) (S : Dir → List (α × Bin α)) : List α :=
  before (S .right) ++ mid.toList ++ after (S .left)

section Apart

variable {s : State α} {mid : Bin α} {S : Dir → List (α × Bin α)}

theorem Split.last_ne (hs : Split s mid S) (d : Dir) {a : α} (ha : a ∈ mid.toList) :
    s.last d ≠ .elm a := by
  intro heq
  obtain hstack | ⟨p, hp, hlast⟩ := (hs.spine d).last
  · rw [hstack] at heq
    cases heq
  · rw [hlast] at heq
    cases heq
    exact hs.apart d _ (mem_elements hp).1 ha

theorem Split.last_cross (hs : Split s mid S) (d : Dir) {a : α}
    (ha : a ∈ elements (S d.swap)) : s.last d ≠ .elm a := by
  intro heq
  obtain hstack | ⟨p, hp, hlast⟩ := (hs.spine d).last
  · rw [hstack] at heq
    cases heq
  · rw [hlast] at heq
    cases heq
    exact hs.cross d _ (mem_elements hp).1 ha

end Apart

section Order

variable {ctx : List (α × Bin α)} {S : Dir → List (α × Bin α)} {d : Dir} {t u v : Bin α} {x y : α}

theorem before_concat (ctx : List (α × Bin α)) (x : α) (u : Bin α) :
    before (ctx ++ [(x, u)]) = before ctx ++ (u.toList ++ [x]) := by
  induction ctx with
  | nil => simp [before]
  | cons p ctx ih =>
    obtain ⟨a, s⟩ := p
    simp [before, ih]

theorem after_concat (ctx : List (α × Bin α)) (x : α) (u : Bin α) :
    after (ctx ++ [(x, u)]) = x :: u.toList ++ after ctx := by
  induction ctx with
  | nil => simp [after]
  | cons p ctx ih =>
    obtain ⟨a, s⟩ := p
    simp [after, ih]

theorem toList_closed_right (ctx : List (α × Bin α)) (t : Bin α) :
    (closed .right ctx t).toList = before ctx ++ t.toList := by
  induction ctx with
  | nil => simp [closed, before]
  | cons p ctx ih =>
    obtain ⟨a, s⟩ := p
    simp [closed, before, Bin.join, ih]

theorem toList_closed_left (ctx : List (α × Bin α)) (t : Bin α) :
    (closed .left ctx t).toList = t.toList ++ after ctx := by
  induction ctx with
  | nil => simp [closed, after]
  | cons p ctx ih =>
    obtain ⟨a, s⟩ := p
    simp [closed, after, Bin.join, ih]

/-- The spines after a link to side `d`. -/
def extend (S : Dir → List (α × Bin α)) (d : Dir) (x : α) (u : Bin α) : Dir → List (α × Bin α) :=
  fun e => if e = d then S e ++ [(x, u)] else S e

@[simp] theorem extend_same : extend S d x u d = S d ++ [(x, u)] := by simp [extend]

@[simp] theorem extend_swap : extend S d x u d.swap = S d.swap := by simp [extend]

theorem whole_extend (S : Dir → List (α × Bin α)) (d : Dir) (t : Bin α) (x : α) (u : Bin α) :
    whole t (extend S d x u) = whole (Bin.join d t x u) S := by
  cases d with
  | left => simp [whole, extend, Bin.join, after_concat]
  | right => simp [whole, extend, Bin.join, before_concat]

theorem whole_rotate (S : Dir → List (α × Bin α)) (d : Dir) (t : Bin α) (x : α) (u : Bin α) (y : α)
    (v : Bin α) : whole (Bin.join d t x (Bin.join d u y v)) S =
      whole (Bin.join d (Bin.join d t x u) y v) S := by
  rw [whole, whole, Bin.toList_rotate]

end Order

section Steps

variable [DecidableEq α] {s : State α} {S : Dir → List (α × Bin α)} {d : Dir} {t u v : Bin α} {x y : α}

theorem Split.link (hs : Split s (Bin.join d t x u) S) :
    Split ⟨splayLink d s.head x (s.last d), fun e => if e = d then .elm x else s.last e⟩ t
      (extend S d x u) := by
  obtain ⟨hd, hswap, ht, hu⟩ := holds_join.1 hs.holds
  obtain ⟨hnt, hnu, hxt, hxu, htu⟩ := Bin.nodup_join.1 hs.nodupMid
  have hx : s.last d ≠ .elm x := hs.last_ne d (by simp)
  have hset : ∀ e, ∀ a ∈ (Bin.join d t x u).toList,
      (s.head.set d (s.last d) (some x)).spe e (.elm a) = s.head.spe e (.elm a) :=
    fun e a ha => set_ne (hs.last_ne d ha).symm
  refine ⟨?_, ?_, ?_, hnt, ?_, ?_, ?_⟩
  · simp only [splayLink]
    rw [hset d x (by simp), hd]
  · exact ht.congr fun e a ha => hset e a (by simp [ha])
  · intro e
    obtain rfl | rfl := Dir.eq_or_eq_swap d e
    · simp only [extend_same, if_true]
      have hlast := (hs.spine e).set_last (v := some x) (hs.nodupSpine e)
      refine (hlast.concat (set_same _ _ _ _) ?_ ?_).of_spe rfl
      · rw [hset _ x (by simp), hswap]
      · exact hu.congr fun e' a ha => hset e' a (by simp [ha])
    · simp only [extend_swap, Dir.swap_ne, if_false]
      exact ((hs.spine d.swap).set_apart (hs.nodupSpine _) (fun a ha => hs.last_cross d ha)
        fun _ => Dir.ne_swap d).of_spe rfl
  · intro e
    obtain rfl | rfl := Dir.eq_or_eq_swap d e
    · rw [extend_same, elements_concat, List.nodup_append]
      refine ⟨hs.nodupSpine e, List.nodup_cons.2 ⟨hxu, hnu⟩, ?_⟩
      rintro a ha b hb rfl
      refine hs.apart e a ha ?_
      simp only [Bin.mem_join, List.mem_cons] at hb ⊢
      exact .inr hb
    · rw [extend_swap]
      exact hs.nodupSpine d.swap
  · intro e a ha hat
    obtain rfl | rfl := Dir.eq_or_eq_swap d e
    · rw [extend_same, elements_concat, List.mem_append, List.mem_cons] at ha
      obtain ha | rfl | ha := ha
      · exact hs.apart e a ha (by simp [hat])
      · exact hxt hat
      · exact htu a hat ha
    · rw [extend_swap] at ha
      exact hs.apart d.swap a ha (by simp [hat])
  · have hother : ∀ a ∈ elements (S d ++ [(x, u)]), a ∉ elements (S d.swap) := by
      intro a ha hmem
      rw [elements_concat, List.mem_append, List.mem_cons] at ha
      obtain ha | ha := ha
      · exact hs.cross d a ha hmem
      · exact hs.apart d.swap a hmem (by simpa using .inr ha)
    intro e a ha hmem
    obtain rfl | rfl := Dir.eq_or_eq_swap d e
    · rw [extend_same] at ha
      rw [extend_swap] at hmem
      exact hother a ha hmem
    · rw [extend_swap] at ha
      rw [Dir.swap_swap, extend_same] at hmem
      exact hother a hmem ha

theorem Split.rotate (hs : Split s (Bin.join d (Bin.join d t x u) y v) S) :
    Split { s with head := splayRotate d.swap s.head y x } (Bin.join d t x (Bin.join d u y v)) S := by
  obtain ⟨-, hyswap, hx, hv⟩ := holds_join.1 hs.holds
  obtain ⟨hxd, hxswap, ht, hu⟩ := holds_join.1 hx
  obtain ⟨hnx, hnv, hyx, hyv, hxv⟩ := Bin.nodup_join.1 hs.nodupMid
  obtain ⟨hnt, hnu, hxt, hxu, htu⟩ := Bin.nodup_join.1 hnx
  have hne : y ≠ x := fun heq => hyx (by simp [heq])
  have hlist := Bin.toList_rotate d t x u y v
  have hframe : ∀ w : Bin α, Holds s.head w → x ∉ w.toList → y ∉ w.toList →
      Holds (splayRotate d.swap s.head y x) w := by
    intro w hw hxw hyw
    refine hw.congr fun e a ha => ?_
    have h1 : Cell.elm a ≠ .elm x := by
      rintro ⟨⟩
      exact hxw ha
    have h2 : Cell.elm a ≠ .elm y := by
      rintro ⟨⟩
      exact hyw ha
    exact (set_ne h1).trans (set_ne h2)
  have hxy : Cell.elm x ≠ Cell.elm y := by
    rintro ⟨⟩
    exact hne rfl
  simp only [Bin.mem_join, not_or] at hyx hxv
  refine ⟨(Bin.root_join _ _ _ _).symm, holds_join.2 ⟨?_, ?_, hframe t ht hxt hyx.1, holds_join.2 ⟨?_, ?_, ?_, ?_⟩⟩, ?_,
    hlist ▸ hs.nodupMid, hs.nodupSpine, fun e a ha => hlist ▸ hs.apart e a ha, hs.cross⟩
  · simp only [splayRotate, Dir.swap_swap]
    rw [set_dir (Dir.ne_swap d), set_ne hxy, hxd]
  · simp only [splayRotate, set_same, Bin.root_join]
  · simp only [splayRotate, Dir.swap_swap]
    rw [set_dir (Dir.ne_swap d), set_same, hxswap]
  · simp only [splayRotate, Dir.swap_swap]
    rw [set_ne hxy.symm, set_dir (Dir.swap_ne d), hyswap]
  · exact hframe u hu hxu hyx.2.2
  · exact hframe v hv (hxv x (.inr (.inl rfl))) hyv
  · intro e
    have hyS : ∀ a ∈ elements (S e), Cell.elm y ≠ .elm a := by
      rintro a ha ⟨⟩
      exact hs.apart e y ha (by simp)
    have hxS : ∀ a ∈ elements (S e), Cell.elm x ≠ .elm a := by
      rintro a ha ⟨⟩
      exact hs.apart e x ha (by simp)
    exact (((hs.spine e).set_apart (hs.nodupSpine e) hyS (by rintro ⟨⟩)).set_apart
      (hs.nodupSpine e) hxS (by rintro ⟨⟩)).of_spe rfl

end Steps

end OpenbsdKernel.SplayTree
