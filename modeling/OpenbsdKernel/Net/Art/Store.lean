import OpenbsdKernel.Net.Art.Basic

/-!
# The tree of tables

What holds of the tables of a root whatever routes they show: the strides, the size
of every table, and that a subtable and the entry it hangs from know each other.
Routes are written through `setShown`, which changes what one index of one table
shows and nothing else.
-/
namespace OpenbsdKernel.Art

def Root.stride (ar : Root) (l : ℕ) : ℕ := ar.ar_bits.getD l 0

/-- The number of bits that the levels above `l` cover. -/
def Root.offset (ar : Root) (l : ℕ) : ℕ := (ar.ar_bits.take l).sum

/-- The two layouts of `art_attach`. -/
def Root.Strides (ar : Root) : Prop :=
  (ar.ar_bits = [16, 8, 8] ∧ ar.ar_nlvl = 3 ∧ ar.ar_alen = 32) ∨
    (ar.ar_bits = List.replicate 16 8 ∧ ar.ar_nlvl = 16 ∧ ar.ar_alen = 128)

theorem Root.offset_succ (ar : Root) (l : ℕ) : ar.offset (l + 1) = ar.offset l + ar.stride l := by
  simp only [Root.offset, Root.stride]
  by_cases hl : l < ar.ar_bits.length
  · simp [List.sum_take_succ _ _ hl, hl]
  · rw [List.take_of_length_le (by omega), List.take_of_length_le (by omega)]
    simp [hl]

theorem Root.offset_mono (ar : Root) {l m : ℕ} (h : l ≤ m) : ar.offset l ≤ ar.offset m := by
  induction m, h using Nat.le_induction with
  | base => exact le_rfl
  | succ m _ ih => rw [ar.offset_succ]; omega

namespace Root.Strides
variable {ar : Root} (h : ar.Strides)
include h

theorem stride_eq {l : ℕ} (hl : l < ar.ar_nlvl) : ar.stride l = 8 ∨ ar.stride l = 16 := by
  obtain ⟨hb, hn, -⟩ | ⟨hb, hn, -⟩ := h
  · rw [hn] at hl
    interval_cases l <;> simp [Root.stride, hb]
  · rw [hn] at hl
    interval_cases l <;> simp [Root.stride, hb]

theorem offset_nlvl : ar.offset ar.ar_nlvl = ar.ar_alen := by
  obtain ⟨hb, hn, ha⟩ | ⟨hb, hn, ha⟩ := h <;> simp [Root.offset, hb, hn, ha]

/-- Every table starts at a byte of the address. -/
theorem offset_byte {l : ℕ} (hl : l ≤ ar.ar_nlvl) : ar.offset l % 8 = 0 := by
  induction l with
  | zero => rfl
  | succ l ih =>
    have hs := h.stride_eq (show l < ar.ar_nlvl by omega)
    have := ih (by omega)
    rw [ar.offset_succ]
    omega

theorem nlvl_pos : 0 < ar.ar_nlvl := by
  obtain ⟨-, hn, -⟩ | ⟨-, hn, -⟩ := h <;> omega

end Root.Strides

/-- A table has the size and the place that its level gives it. -/
structure Root.Fits (ar : Root) (at_ : Table) : Prop where
  level : at_.at_level < ar.ar_nlvl
  bits : at_.at_bits = ar.stride at_.at_level
  minfringe : at_.at_minfringe = 2 ^ at_.at_bits
  offset : at_.at_offset = ar.offset at_.at_level

structure Root.Wf (ar : Root) : Prop where
  strides : ar.Strides
  fresh : ∀ {t a}, ar.tables t = some a → t < ar.fresh
  fits : ∀ {t a}, ar.tables t = some a → ar.Fits a
  root : ∃ a, ar.tables ar.ar_root = some a ∧ a.at_parent = none ∧ a.at_level = 0
  /-- A subtable is in the fringe of its parent and knows where. -/
  child : ∀ {t a k c}, ar.tables t = some a → a.at_heap k = .child c →
    a.at_minfringe ≤ k ∧ k < 2 * a.at_minfringe ∧
      ∃ b, ar.tables c = some b ∧ b.at_parent = some t ∧ b.at_index = k ∧
        b.at_level = a.at_level + 1
  /-- A table other than the first hangs from its parent. -/
  parent : ∀ {t a}, ar.tables t = some a → t ≠ ar.ar_root →
    ∃ p b, a.at_parent = some p ∧ ar.tables p = some b ∧ b.at_heap a.at_index = .child t

namespace Root.Wf
variable {ar : Root} (h : ar.Wf)
include h

theorem bits_eq {t : ℕ} {a : Table} (ht : ar.tables t = some a) : a.at_bits = 8 ∨ a.at_bits = 16 := by
  rw [(h.fits ht).bits]
  exact h.strides.stride_eq (h.fits ht).level

theorem two_le_minfringe {t : ℕ} {a : Table} (ht : ar.tables t = some a) : 2 ≤ a.at_minfringe := by
  rw [(h.fits ht).minfringe]
  obtain e | e := h.bits_eq ht <;> norm_num [e]

theorem offset_eq {t : ℕ} {a : Table} (ht : ar.tables t = some a) :
    a.at_offset + a.at_bits = ar.offset (a.at_level + 1) := by
  rw [ar.offset_succ, (h.fits ht).offset, (h.fits ht).bits]

/-- Entries outside the fringe are routes. -/
theorem heap_node {t k : ℕ} {a : Table} (ht : ar.tables t = some a) (hk : k < a.at_minfringe) :
    a.at_heap k = .node (a.at_heap k).asNode := by
  cases he : a.at_heap k with
  | node an => rfl
  | child c => exact absurd (h.child ht he).1 (by omega)

theorem default_node {t : ℕ} {a : Table} (ht : ar.tables t = some a) :
    a.at_heap 1 = .node a.at_default :=
  h.heap_node ht (by have := h.two_le_minfringe ht; omega)

/-- A subtable hangs from one entry only. -/
theorem child_unique {t u k j c : ℕ} {a b : Table} (ht : ar.tables t = some a)
    (hu : ar.tables u = some b) (hk : a.at_heap k = .child c) (hj : b.at_heap j = .child c) :
    u = t ∧ j = k := by
  obtain ⟨-, -, x, hx, hxp, hxi, -⟩ := h.child ht hk
  obtain ⟨-, -, y, hy, hyp, hyi, -⟩ := h.child hu hj
  obtain rfl : x = y := Option.some.inj (hx.symm.trans hy)
  refine ⟨Option.some.inj (hyp.symm.trans hxp), hyi.symm.trans hxi⟩

theorem child_ne_root {t k c : ℕ} {a : Table} (ht : ar.tables t = some a)
    (hk : a.at_heap k = .child c) : c ≠ ar.ar_root := by
  rintro rfl
  obtain ⟨-, -, b, hb, hp, -, -⟩ := h.child ht hk
  obtain ⟨r, hr, hn, -⟩ := h.root
  obtain rfl : b = r := Option.some.inj (hb.symm.trans hr)
  simp [hn] at hp

end Root.Wf

/-- Two tables that differ in routes and references only. -/
structure Table.Like (a b : Table) : Prop where
  parent : b.at_parent = a.at_parent
  index : b.at_index = a.at_index
  minfringe : b.at_minfringe = a.at_minfringe
  level : b.at_level = a.at_level
  bits : b.at_bits = a.at_bits
  offset : b.at_offset = a.at_offset
  child : ∀ k c, b.at_heap k = .child c ↔ a.at_heap k = .child c

structure Root.Like (ar br : Root) : Prop where
  root : br.ar_root = ar.ar_root
  bits : br.ar_bits = ar.ar_bits
  nlvl : br.ar_nlvl = ar.ar_nlvl
  alen : br.ar_alen = ar.ar_alen
  off : br.ar_off = ar.ar_off
  fresh : br.fresh = ar.fresh
  table : ∀ {t a}, ar.tables t = some a → ∃ b, br.tables t = some b ∧ a.Like b
  back : ∀ {t b}, br.tables t = some b → ∃ a, ar.tables t = some a ∧ a.Like b

theorem Table.Like.refl (a : Table) : a.Like a :=
  ⟨rfl, rfl, rfl, rfl, rfl, rfl, fun _ _ => Iff.rfl⟩

theorem Table.Like.trans {a b c : Table} (h : a.Like b) (h' : b.Like c) : a.Like c :=
  ⟨h'.parent.trans h.parent, h'.index.trans h.index, h'.minfringe.trans h.minfringe,
    h'.level.trans h.level, h'.bits.trans h.bits, h'.offset.trans h.offset,
    fun k d => (h'.child k d).trans (h.child k d)⟩

theorem Root.Like.refl (ar : Root) : ar.Like ar :=
  ⟨rfl, rfl, rfl, rfl, rfl, rfl, fun h => ⟨_, h, .refl _⟩, fun h => ⟨_, h, .refl _⟩⟩

theorem Root.Like.trans {ar br cr : Root} (h : ar.Like br) (h' : br.Like cr) : ar.Like cr := by
  refine ⟨h'.root.trans h.root, h'.bits.trans h.bits, h'.nlvl.trans h.nlvl,
    h'.alen.trans h.alen, h'.off.trans h.off, h'.fresh.trans h.fresh, fun ht => ?_, fun ht => ?_⟩
  · obtain ⟨b, hb, hab⟩ := h.table ht
    obtain ⟨c, hc, hbc⟩ := h'.table hb
    exact ⟨c, hc, hab.trans hbc⟩
  · obtain ⟨b, hb, hbc⟩ := h'.back ht
    obtain ⟨a, ha, hab⟩ := h.back hb
    exact ⟨a, ha, hab.trans hbc⟩

theorem Root.Fits.like {ar br : Root} {a b : Table} (h : ar.Fits a) (hl : ar.Like br)
    (hab : a.Like b) : br.Fits b := by
  refine ⟨?_, ?_, ?_, ?_⟩
  · rw [hab.level, hl.nlvl]
    exact h.level
  · simpa [hab.bits, hab.level, Root.stride, hl.bits] using h.bits
  · rw [hab.minfringe, hab.bits]
    exact h.minfringe
  · simpa [hab.offset, hab.level, Root.offset, hl.bits] using h.offset

theorem Root.Wf.like {ar br : Root} (h : ar.Wf) (hl : ar.Like br) : br.Wf := by
  refine ⟨?_, fun ht => ?_, fun ht => ?_, ?_, fun {t b k c} ht hk => ?_, fun {t b} ht hne => ?_⟩
  · simpa [Root.Strides, hl.bits, hl.nlvl, hl.alen] using h.strides
  · obtain ⟨a, ha, -⟩ := hl.back ht
    rw [hl.fresh]
    exact h.fresh ha
  · obtain ⟨a, ha, hab⟩ := hl.back ht
    exact (h.fits ha).like hl hab
  · obtain ⟨a, ha, hp, hlv⟩ := h.root
    obtain ⟨b, hb, hab⟩ := hl.table ha
    exact ⟨b, by rw [hl.root, hb], by rw [hab.parent, hp], by rw [hab.level, hlv]⟩
  · obtain ⟨a, ha, hab⟩ := hl.back ht
    obtain ⟨hlo, hhi, d, hd, hp, hi, hlv⟩ := h.child ha ((hab.child k c).mp hk)
    obtain ⟨e, he, hde⟩ := hl.table hd
    refine ⟨by rw [hab.minfringe]; exact hlo, by rw [hab.minfringe]; exact hhi, e, he, ?_, ?_, ?_⟩
    · rw [hde.parent, hp]
    · rw [hde.index, hi]
    · rw [hde.level, hlv, hab.level]
  · obtain ⟨a, ha, hab⟩ := hl.back ht
    obtain ⟨p, d, hp, hd, hk⟩ := h.parent ha (by rwa [hl.root] at hne)
    obtain ⟨e, he, hde⟩ := hl.table hd
    exact ⟨p, e, by rw [hab.parent, hp], he, by rw [hab.index]; exact (hde.child _ _).mpr hk⟩

@[simp] theorem Root.modify_tables (ar : Root) (t : ℕ) (f : Table → Table) (u : ℕ) :
    (ar.modify t f).tables u = if u = t then (ar.tables t).map f else ar.tables u := by
  simp [Root.modify, Function.update_apply]

@[simp] theorem Root.modify_root (ar : Root) (t : ℕ) (f : Table → Table) :
    (ar.modify t f).ar_root = ar.ar_root := rfl

@[simp] theorem Root.modify_nlvl (ar : Root) (t : ℕ) (f : Table → Table) :
    (ar.modify t f).ar_nlvl = ar.ar_nlvl := rfl

@[simp] theorem Root.setHeap_root (ar : Root) (t k : ℕ) (e : Entry) :
    (ar.setHeap t k e).ar_root = ar.ar_root := rfl

@[simp] theorem Root.setHeap_tables (ar : Root) (t k : ℕ) (e : Entry) (u : ℕ) :
    (ar.setHeap t k e).tables u = if u = t then
      (ar.tables t).map fun at_ => { at_ with at_heap := Function.update at_.at_heap k e }
    else ar.tables u := by
  simp [Root.setHeap]

theorem Root.like_modify {ar : Root} {t : ℕ} {f : Table → Table}
    (hf : ∀ a, ar.tables t = some a → a.Like (f a)) : ar.Like (ar.modify t f) := by
  refine ⟨rfl, rfl, rfl, rfl, rfl, rfl, fun {u _} hu => ?_, fun {u b} hu => ?_⟩
  · by_cases hut : u = t
    · subst hut
      exact ⟨_, by simp [hu], hf _ hu⟩
    · exact ⟨_, by simpa [hut] using hu, .refl _⟩
  · by_cases hut : u = t
    · subst hut
      simp only [modify_tables, if_true, Option.map_eq_some_iff] at hu
      obtain ⟨a, ha, rfl⟩ := hu
      exact ⟨a, ha, hf a ha⟩
    · exact ⟨b, by simpa [hut] using hu, .refl b⟩

/-- A route in the place of a route leaves the tables as they are. -/
theorem Root.like_setHeap {ar : Root} {t k : ℕ} {a : Table} (v : Option Node)
    (ht : ar.tables t = some a) (hk : ∀ c, a.at_heap k ≠ .child c) :
    ar.Like (ar.setHeap t k (.node v)) := by
  refine Root.like_modify fun b hb => ?_
  obtain rfl : a = b := Option.some.inj (ht.symm.trans hb)
  refine ⟨rfl, rfl, rfl, rfl, rfl, rfl, fun j c => ?_⟩
  by_cases hj : j = k
  · subst hj
    simp [hk c]
  · simp [hj]

/-- The route at an index, as `shownAt` finds it. -/
def Root.shown (ar : Root) (t k : ℕ) : Option Node :=
  ((ar.tables t).bind fun at_ => shownAt ar at_ k).join

/-- The default route of the whole table. -/
def Root.dflt (ar : Root) : Option Node := (ar.tables ar.ar_root).bind Table.at_default

def Root.refs (ar : Root) (t : ℕ) : Option ℤ := (ar.tables t).map Table.at_refcnt

theorem Root.shown_node {ar : Root} {t k : ℕ} {a : Table} {v : Option Node}
    (ht : ar.tables t = some a) (hk : a.at_heap k = .node v) : ar.shown t k = v := by
  simp [Root.shown, ht, shownAt, hk]

theorem Root.shown_child {ar : Root} {t k c : ℕ} {a b : Table} (ht : ar.tables t = some a)
    (hk : a.at_heap k = .child c) (hc : ar.tables c = some b) : ar.shown t k = b.at_default := by
  simp [Root.shown, ht, shownAt, hk, hc]

theorem Root.Wf.shownAt_eq {ar : Root} (h : ar.Wf) {t k : ℕ} {a : Table}
    (ht : ar.tables t = some a) : shownAt ar a k = some (ar.shown t k) := by
  cases hk : a.at_heap k with
  | node v => simp [shownAt, hk, Root.shown_node ht hk]
  | child c =>
    obtain ⟨-, -, b, hb, -⟩ := h.child ht hk
    simp [shownAt, hk, hb, Root.shown_child ht hk hb]

theorem Root.Wf.heap_eq {ar : Root} (h : ar.Wf) {t k : ℕ} {a : Table}
    (ht : ar.tables t = some a) (hk : k < a.at_minfringe) :
    a.at_heap k = .node (ar.shown t k) := by
  rw [Root.shown_node ht (h.heap_node ht hk)]
  exact h.heap_node ht hk

/-- Make an index show a route: in the entry, or as the default of the subtable. -/
def Root.setShown (ar : Root) (t k : ℕ) (v : Option Node) : Root :=
  match (ar.tables t).map fun at_ : Table => at_.at_heap k with
  | some (.child c) => ar.setHeap c 1 (.node v)
  | _ => ar.setHeap t k (.node v)

theorem Root.setShown_node {ar : Root} {t k : ℕ} {a : Table} {v w : Option Node}
    (ht : ar.tables t = some a) (hk : a.at_heap k = .node w) :
    ar.setShown t k v = ar.setHeap t k (.node v) := by
  simp [Root.setShown, ht, hk]

theorem Root.setShown_child {ar : Root} {t k c : ℕ} {a : Table} {v : Option Node}
    (ht : ar.tables t = some a) (hk : a.at_heap k = .child c) :
    ar.setShown t k v = ar.setHeap c 1 (.node v) := by
  simp [Root.setShown, ht, hk]

theorem Root.Wf.setShown_like {ar : Root} (h : ar.Wf) {t k : ℕ} {a : Table} (v : Option Node)
    (ht : ar.tables t = some a) : ar.Like (ar.setShown t k v) := by
  cases hk : a.at_heap k with
  | node w =>
    rw [Root.setShown_node ht hk]
    exact Root.like_setHeap v ht (by simp [hk])
  | child c =>
    rw [Root.setShown_child ht hk]
    obtain ⟨-, -, b, hb, -⟩ := h.child ht hk
    exact Root.like_setHeap v hb (by simp [h.default_node hb])

/-- A route written at an entry is seen at that index and, where the entry is the
default of a table, at the index that the table hangs from. -/
theorem Root.Wf.shown_setHeap {ar : Root} (h : ar.Wf) {t k u j : ℕ} {a b : Table}
    {v w : Option Node} (ht : ar.tables t = some a) (hk : a.at_heap k = .node w)
    (hu : ar.tables u = some b) :
    (ar.setHeap t k (.node v)).shown u j =
      if u = t ∧ j = k ∨ k = 1 ∧ b.at_heap j = .child t then v else ar.shown u j := by
  by_cases hhere : u = t ∧ j = k
  · obtain ⟨rfl, rfl⟩ := hhere
    simp [Root.shown, ht, shownAt]
  -- elsewhere the entry itself is what it was
  have hentry : ∃ b', (ar.setHeap t k (.node v)).tables u = some b' ∧
      b'.at_heap j = b.at_heap j := by
    by_cases hut : u = t
    · subst hut
      obtain rfl : a = b := Option.some.inj (ht.symm.trans hu)
      have hjk : j ≠ k := fun e => hhere ⟨rfl, e⟩
      exact ⟨{ a with at_heap := Function.update a.at_heap k (.node v) }, by simp [hu],
        by simp [hjk]⟩
    · exact ⟨b, by simp [hut, hu], rfl⟩
  obtain ⟨b', hb', hjb'⟩ := hentry
  cases hjb : b.at_heap j with
  | node x => simp [Root.shown_node hb' (hjb'.trans hjb), Root.shown_node hu hjb, hhere]
  | child d =>
    obtain ⟨-, -, e, he, -⟩ := h.child hu hjb
    rw [Root.shown_child hu hjb he]
    by_cases hdt : d = t
    · subst hdt
      obtain rfl : a = e := Option.some.inj (ht.symm.trans he)
      have hd : (ar.setHeap d k (.node v)).tables d =
          some { a with at_heap := Function.update a.at_heap k (.node v) } := by simp [ht]
      rw [Root.shown_child hb' (hjb'.trans hjb) hd]
      by_cases hk1 : k = 1
      · subst hk1
        simp [Table.at_default, Entry.asNode]
      · simp [Table.at_default, hhere, hk1, Ne.symm hk1]
    · rw [Root.shown_child hb' (hjb'.trans hjb) (b := e) (by simp [hdt, he])]
      simp [hhere, hdt]

/-- One index of one table shows another route afterwards. -/
theorem Root.Wf.setShown_shown {ar : Root} (h : ar.Wf) {t k u j : ℕ} {a : Table} (v : Option Node)
    (ht : ar.tables t = some a) (hk : 2 ≤ k) (hj : 2 ≤ j) :
    (ar.setShown t k v).shown u j = if u = t ∧ j = k then v else ar.shown u j := by
  cases hu : ar.tables u with
  | none =>
    have hut : u ≠ t := by rintro rfl; simp [hu] at ht
    have hnone : (ar.setShown t k v).tables u = none := by
      refine Option.eq_none_iff_forall_not_mem.mpr fun b hb => ?_
      obtain ⟨a', ha', -⟩ := (h.setShown_like (k := k) v ht).back hb
      simp [hu] at ha'
    simp [Root.shown, hu, hnone, hut]
  | some b =>
    cases hka : a.at_heap k with
    | node x =>
      rw [Root.setShown_node ht hka, h.shown_setHeap ht hka hu]
      simp [show k ≠ 1 by omega]
    | child c =>
      obtain ⟨-, -, x, hx, -⟩ := h.child ht hka
      rw [Root.setShown_child ht hka, h.shown_setHeap hx (h.default_node hx) hu]
      have hiff : b.at_heap j = .child c ↔ u = t ∧ j = k := by
        refine ⟨fun hjb => h.child_unique ht hu hka hjb, ?_⟩
        rintro ⟨rfl, rfl⟩
        obtain rfl : a = b := Option.some.inj (ht.symm.trans hu)
        exact hka
      simp [show j ≠ 1 by omega, hiff]

/-- In the second root table `t` shows `σ`; nothing else has changed. -/
structure Shows (ar br : Root) (t : ℕ) (σ : ℕ → Option Node) : Prop where
  like : ar.Like br
  here : ∀ {k}, 2 ≤ k → br.shown t k = σ k
  others : ∀ {u k}, u ≠ t → 2 ≤ k → br.shown u k = ar.shown u k
  refs : br.refs = ar.refs
  dflt : br.dflt = ar.dflt

theorem Root.refs_setHeap (ar : Root) (t k : ℕ) (e : Entry) : (ar.setHeap t k e).refs = ar.refs := by
  funext u
  by_cases hut : u = t
  · subst hut
    simp [Root.refs, Function.comp_def]
  · simp [Root.refs, hut]

theorem Root.dflt_setHeap {ar : Root} {t k : ℕ} (e : Entry) (h : t ≠ ar.ar_root ∨ k ≠ 1) :
    (ar.setHeap t k e).dflt = ar.dflt := by
  by_cases hr : ar.ar_root = t
  · have hk : 1 ≠ k := by rintro rfl; exact absurd hr.symm (h.resolve_right (by simp))
    cases ht : ar.tables t with
    | none => simp [Root.dflt, hr, ht]
    | some a => simp [Root.dflt, hr, ht, Table.at_default, hk]
  · simp [Root.dflt, hr]

theorem Root.Wf.shows_setShown {ar br : Root} (h : ar.Wf) {t k : ℕ} {σ : ℕ → Option Node}
    {a : Table} (v : Option Node) (ht : br.tables t = some a) (hk : 2 ≤ k) (hs : Shows ar br t σ) :
    Shows ar (br.setShown t k v) t (Function.update σ k v) := by
  have hbr := h.like hs.like
  refine ⟨hs.like.trans (hbr.setShown_like v ht), fun {j} hj => ?_, fun {u j} hu hj => ?_, ?_, ?_⟩
  · rw [hbr.setShown_shown v ht hk hj, Function.update_apply, hs.here hj]
    simp
  · rw [hbr.setShown_shown v ht hk hj, if_neg (fun e => hu e.1), hs.others hu hj]
  · rw [← hs.refs]
    cases hka : a.at_heap k with
    | node x => rw [Root.setShown_node ht hka, Root.refs_setHeap]
    | child c => rw [Root.setShown_child ht hka, Root.refs_setHeap]
  · rw [← hs.dflt]
    cases hka : a.at_heap k with
    | node x => rw [Root.setShown_node ht hka, Root.dflt_setHeap _ (.inr (by omega))]
    | child c =>
      rw [Root.setShown_child ht hka, Root.dflt_setHeap _ (.inl (hbr.child_ne_root ht hka))]

end OpenbsdKernel.Art
