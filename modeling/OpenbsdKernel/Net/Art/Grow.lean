import OpenbsdKernel.Net.Art.Routes

/-!
# New tables

A leaf on the way of a longer prefix is replaced by a subtable whose default is the
route of the leaf. Every index shows what it showed before; the new table owns
nothing, and all it changes is that the way of some addresses goes on.
-/
namespace OpenbsdKernel.Art

open Allotment

/-- The table that `art_table_get` makes below index `j` of `t`, its reference taken. -/
def Root.subtable (ar : Root) (t j : ℕ) (a : Table) : Table :=
  { at_parent := some t
    at_index := j
    at_minfringe := 2 ^ ar.stride (a.at_level + 1)
    at_level := a.at_level + 1
    at_bits := ar.stride (a.at_level + 1)
    at_offset := a.at_offset + a.at_bits
    at_refcnt := 1
    at_heap := Function.update (fun _ => .node none) 1 (.node (a.at_heap j).asNode) }

/-- The root with a new table hung below index `j` of `t`. -/
def Root.link (ar : Root) (t j : ℕ) (a : Table) : Root :=
  { ar with
    fresh := ar.fresh + 1
    tables := Function.update (Function.update ar.tables ar.fresh (some (ar.subtable t j a))) t
      (some { a with at_heap := Function.update a.at_heap j (.child ar.fresh) }) }

section Link
variable {ar : Root} {own : Owners} {x : List UInt8} {t j : ℕ} {a : Table} {an : Option Node}

theorem insertLoop_link (h : ar.Wf) (ht : ar.tables t = some a) {plen : ℕ} (fuel : ℕ)
    (mem : ℕ → Bool) (hlong : plen > a.at_offset + a.at_bits) (hlev : a.at_level + 1 < ar.ar_nlvl)
    (hj : art_findex a x = some j) (hk : a.at_heap j = .node an) :
    insertLoop x plen mem (fuel + 1) ar t =
      if mem (a.at_level + 1) then insertLoop x plen mem fuel (ar.link t j a) ar.fresh
      else some (ar, none) := by
  have hne : t ≠ ar.fresh := (h.fresh ht).ne
  have h2 := h.two_le_minfringe ht
  rw [h.findex_eq ht] at hj
  have hj2 : j ≠ 0 ∧ j ≠ 1 := by
    have := Option.some.inj hj
    omega
  by_cases hmem : mem (a.at_level + 1)
  · have hget : art_table_get ar (some t) j mem = some
        ({ ar with
           fresh := ar.fresh + 1
           tables := Function.update ar.tables ar.fresh (some (ar.subtable t j a)) },
          some ar.fresh) := by
      simp [art_table_get, guard, hj2, ht, hlev, hmem, art_table_ref, Root.modify, Root.subtable,
        Root.stride, Nat.shiftLeft_eq]
    have hlink : Root.setHeap { ar with
        fresh := ar.fresh + 1
        tables := Function.update ar.tables ar.fresh (some (ar.subtable t j a)) } t j
        (.child ar.fresh) = ar.link t j a := by
      simp [Root.setHeap, Root.modify, Root.link, hne, ht]
    rw [if_pos hmem]
    simp [insertLoop, ht, hlong, h.findex_eq ht, Option.some.inj hj, hk, hget, hlink]
  · have hget : art_table_get ar (some t) j mem = some (ar, none) := by
      simp [art_table_get, guard, hj2, ht, hlev, hmem]
    rw [if_neg hmem]
    simp [insertLoop, ht, hlong, h.findex_eq ht, Option.some.inj hj, hk, hget]

theorem Root.link_parent (ar : Root) (t j : ℕ) (a : Table) :
    (ar.link t j a).tables t =
      some { a with at_heap := Function.update a.at_heap j (.child ar.fresh) } := by
  simp [Root.link]

theorem Root.link_new {ar : Root} {t : ℕ} (h : t < ar.fresh) (j : ℕ) (a : Table) :
    (ar.link t j a).tables ar.fresh = some (ar.subtable t j a) := by
  simp [Root.link, h.ne']

theorem Root.link_other (ar : Root) {t u : ℕ} (j : ℕ) (a : Table) (ht : u ≠ t)
    (hf : u ≠ ar.fresh) : (ar.link t j a).tables u = ar.tables u := by
  simp [Root.link, ht, hf]

/-- The tables there were, with their entries save the one that was linked. -/
theorem Root.Wf.link_old (h : ar.Wf) (ht : ar.tables t = some a) {u : ℕ} {b : Table}
    (hu : ar.tables u = some b) :
    ∃ b', (ar.link t j a).tables u = some b' ∧ b'.at_parent = b.at_parent ∧
      b'.at_index = b.at_index ∧ b'.at_minfringe = b.at_minfringe ∧ b'.at_level = b.at_level ∧
      b'.at_bits = b.at_bits ∧ b'.at_offset = b.at_offset ∧ b'.at_refcnt = b.at_refcnt ∧
      ∀ k, b'.at_heap k = if u = t ∧ k = j then .child ar.fresh else b.at_heap k := by
  by_cases hut : u = t
  · subst hut
    obtain rfl : a = b := Option.some.inj (ht.symm.trans hu)
    refine ⟨_, ar.link_parent u j a, rfl, rfl, rfl, rfl, rfl, rfl, rfl, fun k => ?_⟩
    simp [Function.update_apply]
  · refine ⟨b, by rw [ar.link_other j a hut (h.fresh hu).ne, hu], rfl, rfl, rfl, rfl, rfl, rfl,
      rfl, fun k => by simp [hut]⟩

theorem Root.Wf.link_back (h : ar.Wf) (ht : ar.tables t = some a) {u : ℕ} {b' : Table}
    (hu : (ar.link t j a).tables u = some b') :
    (u = ar.fresh ∧ b' = ar.subtable t j a) ∨ ∃ b, ar.tables u = some b := by
  by_cases huf : u = ar.fresh
  · subst huf
    rw [ar.link_new (h.fresh ht)] at hu
    exact .inl ⟨rfl, (Option.some.inj hu).symm⟩
  · by_cases hut : u = t
    · exact .inr ⟨a, hut ▸ ht⟩
    · rw [ar.link_other j a hut huf] at hu
      exact .inr ⟨b', hu⟩

theorem Root.subtable_heap (ar : Root) (t j : ℕ) (a : Table) (k : ℕ) :
    (ar.subtable t j a).at_heap k =
      .node (if k = 1 then (a.at_heap j).asNode else none) := by
  by_cases hk : k = 1 <;> simp [Root.subtable, hk]

theorem Root.Wf.link_wf (h : ar.Wf) (ht : ar.tables t = some a)
    (hlev : a.at_level + 1 < ar.ar_nlvl) (hj : art_findex a x = some j)
    (hk : a.at_heap j = .node an) : (ar.link t j a).Wf := by
  have hjr : a.at_minfringe ≤ j ∧ j < 2 * a.at_minfringe := by
    have hlt := h.strideOf_lt ht x
    rw [h.findex_eq ht] at hj
    have := (h.fits ht).minfringe
    have := Option.some.inj hj
    omega
  refine ⟨h.strides, fun {u b'} hu => ?_, fun {u b'} hu => ?_, ?_, fun {u b' k c} hu hc => ?_,
    fun {u b'} hu hne => ?_⟩
  · change u < ar.fresh + 1
    obtain ⟨rfl, -⟩ | ⟨b, hb⟩ := h.link_back ht hu
    · omega
    · have := h.fresh hb
      omega
  · obtain ⟨rfl, rfl⟩ | ⟨b, hb⟩ := h.link_back ht hu
    · refine ⟨hlev, rfl, rfl, ?_⟩
      change a.at_offset + a.at_bits = ar.offset (a.at_level + 1)
      exact h.offset_eq ht
    · obtain ⟨b₁, hb₁, -, -, hm, hl, hbi, hof, -, -⟩ := h.link_old (j := j) ht hb
      obtain rfl : b' = b₁ := Option.some.inj (hu.symm.trans hb₁)
      have hfit := h.fits hb
      refine ⟨?_, ?_, ?_, ?_⟩
      · rw [hl]; exact hfit.level
      · rw [hbi, hl]; exact hfit.bits
      · rw [hm, hbi]; exact hfit.minfringe
      · rw [hof, hl]; exact hfit.offset
  · obtain ⟨r, hr, hp, hl⟩ := h.root
    obtain ⟨r', hr', hp', -, -, hl', -⟩ := h.link_old (j := j) ht hr
    exact ⟨r', hr', by rw [hp', hp], by rw [hl', hl]⟩
  · obtain ⟨rfl, rfl⟩ | ⟨b, hb⟩ := h.link_back ht hu
    · simp [Root.subtable_heap] at hc
    · obtain ⟨b₁, hb₁, -, -, hm, hl, -, -, -, hheap⟩ := h.link_old (j := j) ht hb
      obtain rfl : b' = b₁ := Option.some.inj (hu.symm.trans hb₁)
      rw [hheap] at hc
      split_ifs at hc with hcase
      · obtain ⟨rfl, rfl⟩ := hcase
        obtain rfl : a = b := Option.some.inj (ht.symm.trans hb)
        cases hc
        rw [hm, hl]
        exact ⟨hjr.1, hjr.2, _, ar.link_new (h.fresh ht) k a, rfl, rfl, rfl⟩
      · obtain ⟨hlo, hhi, d, hd, hp, hi, hdl⟩ := h.child hb hc
        obtain ⟨d', hd', hp', hi', -, hl', -⟩ := h.link_old (j := j) ht hd
        rw [hm, hl]
        exact ⟨hlo, hhi, d', hd', by rw [hp', hp], by rw [hi', hi], by rw [hl', hdl]⟩
  · obtain ⟨rfl, rfl⟩ | ⟨b, hb⟩ := h.link_back ht hu
    · exact ⟨t, _, rfl, ar.link_parent t j a, by simp [Root.subtable]⟩
    · obtain ⟨b₁, hb₁, hpb, hib, -⟩ := h.link_old (j := j) ht hb
      obtain rfl : b' = b₁ := Option.some.inj (hu.symm.trans hb₁)
      obtain ⟨p, d, hp, hd, hdk⟩ := h.parent hb hne
      obtain ⟨d', hd', -, -, -, -, -, -, -, hheap⟩ := h.link_old (j := j) ht hd
      refine ⟨p, d', by rw [hpb, hp], hd', ?_⟩
      rw [hib, hheap, if_neg, hdk]
      rintro ⟨rfl, hij⟩
      obtain rfl : a = d := Option.some.inj (ht.symm.trans hd)
      rw [hij, hk] at hdk
      cases hdk

theorem Root.Wf.link_shown (h : ar.Wf) (ht : ar.tables t = some a) (hj1 : 2 ≤ j)
    (hk : a.at_heap j = .node an) {u k : ℕ} {b : Table} (hu : ar.tables u = some b) :
    (ar.link t j a).shown u k = ar.shown u k := by
  obtain ⟨b', hb', -, -, -, -, -, -, -, hheap⟩ := h.link_old (j := j) ht hu
  by_cases hcase : u = t ∧ k = j
  · obtain ⟨rfl, rfl⟩ := hcase
    obtain rfl : a = b := Option.some.inj (ht.symm.trans hu)
    have hck : b'.at_heap k = .child ar.fresh := by simp [hheap]
    rw [Root.shown_child hb' hck (ar.link_new (h.fresh ht) k a), Root.shown_node ht hk,
      Table.at_default, Root.subtable_heap, if_pos rfl, hk]
    rfl
  · have hsame : b'.at_heap k = b.at_heap k := by rw [hheap, if_neg hcase]
    cases hbk : b.at_heap k with
    | node v => rw [Root.shown_node hu hbk, Root.shown_node hb' (hsame.trans hbk)]
    | child d =>
      obtain ⟨-, -, e, he, -⟩ := h.child hu hbk
      obtain ⟨e', he', -, -, -, -, -, -, -, hheap'⟩ := h.link_old (j := j) ht he
      rw [Root.shown_child hu hbk he, Root.shown_child hb' (hsame.trans hbk) he',
        Table.at_default, Table.at_default, hheap', if_neg (by omega)]

theorem Root.Wf.link_dflt (h : ar.Wf) (ht : ar.tables t = some a) (hj : 2 ≤ j) :
    (ar.link t j a).dflt = ar.dflt := by
  obtain ⟨r, hr, -⟩ := h.root
  obtain ⟨r', hr', -, -, -, -, -, -, -, hheap⟩ := h.link_old (j := j) ht hr
  have hroot : (ar.link t j a).ar_root = ar.ar_root := rfl
  rw [Root.dflt, Root.dflt, hroot, hr, hr', Option.bind_some, Option.bind_some,
    Table.at_default, Table.at_default, hheap, if_neg (by omega)]

theorem Path.link (h : ar.Wf) (ht : ar.tables t = some a) (hk : a.at_heap j = .node an) {u : ℕ}
    {y : List UInt8} (hp : Path ar y u) : Path (ar.link t j a) y u := by
  induction hp with
  | root => exact .root
  | @child p i c d hp hd hi hc ih =>
    obtain ⟨d', hd', -, -, -, -, hb, ho, -, hheap⟩ := h.link_old (j := j) ht hd
    refine .child (j := i) ih hd' ?_ ?_
    · rw [← hi]
      simp [art_findex, art_bindex, ho, hb]
    · rw [hheap, if_neg, hc]
      rintro ⟨rfl, rfl⟩
      obtain rfl : a = d := Option.some.inj (ht.symm.trans hd)
      rw [hk] at hc
      cases hc

/-- The way of an address in the new tree is the old one, with the new table at most. -/
theorem Path.of_link (h : ar.Wf) (ht : ar.tables t = some a) {u : ℕ} {y : List UInt8}
    (hp : Path (ar.link t j a) y u) : u = ar.fresh ∨ Path ar y u := by
  induction hp with
  | root => exact .inr .root
  | @child p i c d' _ hd' hi hc ih =>
    obtain ⟨rfl, rfl⟩ | ⟨d, hd⟩ := h.link_back ht hd'
    · simp [Root.subtable_heap] at hc
    · obtain ⟨d₁, hd₁, -, -, -, -, hb, ho, -, hheap⟩ := h.link_old (j := j) ht hd
      obtain rfl : d' = d₁ := Option.some.inj (hd'.symm.trans hd₁)
      rw [hheap] at hc
      split_ifs at hc
      · cases hc
        exact .inl rfl
      · refine .inr (.child (ih.resolve_left (h.fresh hd).ne) hd ?_ hc)
        rw [← hi]
        simp [art_findex, art_bindex, ho, hb]

theorem Routed.link (h : Routed ar own) (ht : ar.tables t = some a)
    (hlev : a.at_level + 1 < ar.ar_nlvl) (hj : art_findex a x = some j)
    (hk : a.at_heap j = .node an) : Routed (ar.link t j a) own := by
  have hj2 : 2 ≤ j := by
    have h2 := h.wf.two_le_minfringe ht
    rw [h.wf.findex_eq ht] at hj
    have := Option.some.inj hj
    omega
  refine ⟨h.wf.link_wf ht hlev hj hk, fun {u i n} hown => ?_, fun {u b' k} hu hk2 hlt => ?_,
    fun hn => h.dflt (h.wf.link_dflt ht hj2 ▸ hn)⟩
  · obtain ⟨b, hb⟩ := h.owned hown
    obtain ⟨b', hb', -, -, -, -, hbi, hof, -, -⟩ := h.wf.link_old (j := j) ht hb.table
    refine ⟨b', hb', hb.path.link h.wf ht hk, ?_, ?_, ?_⟩
    · rw [hof]; exact hb.above
    · rw [hof, hbi]; exact hb.within
    · rw [← hb.index]
      simp [art_bindex, hof, hbi]
  · obtain ⟨rfl, rfl⟩ | ⟨b, hb⟩ := h.wf.link_back ht hu
    · have hnone : own ar.fresh = fun _ => none := by
        funext i
        refine Option.eq_none_iff_forall_not_mem.mpr fun n hn => ?_
        obtain ⟨b, hb⟩ := h.owned hn
        exact absurd (h.wf.fresh hb.table) (lt_irrefl _)
      rw [hnone, near_empty, Root.shown_node hu (Root.subtable_heap ar t j a k), if_neg (by omega)]
    · obtain ⟨b₁, hb₁, -, -, hm, -⟩ := h.wf.link_old (j := j) ht hb
      obtain rfl : b' = b₁ := Option.some.inj (hu.symm.trans hb₁)
      rw [h.wf.link_shown ht hj2 hk hb]
      exact h.shown hb hk2 (by rwa [hm] at hlt)

theorem Counted.link (h : Routed ar own) (hc : Counted ar own) (ht : ar.tables t = some a) :
    Counted (ar.link t j a) own := by
  intro u b' hu
  obtain ⟨rfl, rfl⟩ | ⟨b, hb⟩ := h.wf.link_back ht hu
  · have hzero : ownCount (own ar.fresh) (ar.subtable t j a).at_minfringe = 0 := by
      refine Finset.card_eq_zero.mpr (Finset.filter_eq_empty_iff.mpr fun i _ hi => ?_)
      obtain ⟨n, hn⟩ := Option.isSome_iff_exists.mp hi
      obtain ⟨b, hb⟩ := h.owned hn
      exact absurd (h.wf.fresh hb.table) (lt_irrefl _)
    rw [hzero]
    rfl
  · obtain ⟨b₁, hb₁, -, -, hm, -, -, -, href, -⟩ := h.wf.link_old (j := j) ht hb
    obtain rfl : b' = b₁ := Option.some.inj (hu.symm.trans hb₁)
    rw [href, hm]
    exact hc u b hb

end Link

/-- The second root has the layout of the first and its tables. -/
structure Kept (ar br : Root) : Prop where
  root : br.ar_root = ar.ar_root
  nlvl : br.ar_nlvl = ar.ar_nlvl
  alen : br.ar_alen = ar.ar_alen
  off : br.ar_off = ar.ar_off
  tables : ∀ {t a}, ar.tables t = some a → ∃ b, br.tables t = some b

theorem Kept.refl (ar : Root) : Kept ar ar := ⟨rfl, rfl, rfl, rfl, fun h => ⟨_, h⟩⟩

theorem Kept.trans {ar br cr : Root} (h : Kept ar br) (h' : Kept br cr) : Kept ar cr := by
  refine ⟨h'.root.trans h.root, h'.nlvl.trans h.nlvl, h'.alen.trans h.alen,
    h'.off.trans h.off, fun ht => ?_⟩
  obtain ⟨b, hb⟩ := h.tables ht
  exact h'.tables hb

theorem Root.Like.kept {ar br : Root} (h : ar.Like br) : Kept ar br := by
  refine ⟨h.root, h.nlvl, h.alen, h.off, fun ht => ?_⟩
  obtain ⟨b, hb, -⟩ := h.table ht
  exact ⟨b, hb⟩

/-- Memory is there for every table that the way of the prefix lacks. -/
def Supplied (ar : Root) (addr : List UInt8) (plen : ℕ) (mem : ℕ → Bool) : Prop :=
  ∀ l, ar.offset l < plen →
    (¬ ∃ t a, Path ar addr t ∧ ar.tables t = some a ∧ a.at_level = l) → mem l = true

theorem Path.at_level {ar : Root} (h : ar.Wf) {x : List UInt8} {t l : ℕ} {a : Table}
    (hp : Path ar x t) (ha : ar.tables t = some a) (hl : l ≤ a.at_level) :
    ∃ u b, Path ar x u ∧ ar.tables u = some b ∧ b.at_level = l := by
  induction hp generalizing a with
  | root =>
    have := Path.root_level h ha
    exact ⟨_, a, .root, ha, by omega⟩
  | @child p j c d hp hd hj hk ih =>
    obtain ⟨-, -, e, he, -, -, hle⟩ := h.child hd hk
    obtain rfl : a = e := Option.some.inj (ha.symm.trans he)
    obtain hlt | rfl := Nat.lt_or_eq_of_le hl
    · exact ih hd (by omega)
    · exact ⟨c, a, .child hp hd hj hk, ha, rfl⟩

section Down
variable {own : Owners} {x : List UInt8} {plen : ℕ} {mem : ℕ → Bool}

theorem supplied_link {ar : Root} (h : ar.Wf) {t j : ℕ} {a : Table} {an : Option Node}
    (ht : ar.tables t = some a) (hk : a.at_heap j = .node an)
    (hmem : mem (a.at_level + 1) = true) :
    Supplied (ar.link t j a) x plen mem ↔ Supplied ar x plen mem := by
  constructor
  · intro hs l hl hno
    by_cases hlev : l = a.at_level + 1
    · rwa [hlev]
    refine hs l hl ?_
    rintro ⟨u, b, hp, hu, hbl⟩
    obtain ⟨rfl, rfl⟩ | ⟨c, hc⟩ := h.link_back ht hu
    · exact hlev hbl.symm
    · obtain ⟨c', hc', -, -, -, hl', -⟩ := h.link_old (j := j) ht hc
      obtain rfl : b = c' := Option.some.inj (hu.symm.trans hc')
      exact hno ⟨u, c, (hp.of_link h ht).resolve_left (h.fresh hc).ne, hc, by rw [← hl', hbl]⟩
  · intro hs l hl hno
    refine hs l hl ?_
    rintro ⟨u, b, hp, hu, hbl⟩
    obtain ⟨b', hb', -, -, -, hl', -⟩ := h.link_old (j := j) ht hu
    exact hno ⟨u, b', hp.link h ht hk, hb', by rw [hl', hbl]⟩

variable (x mem) in
/-- The loop of `art_insert` reaches the table of the prefix unless memory fails it;
the routes stay as they are. -/
theorem insertLoop_spec :
    ∀ (fuel : ℕ) (ar : Root) (t : ℕ) (a : Table), Routed ar own → Counted ar own →
      plen ≤ ar.ar_alen → Path ar x t → ar.tables t = some a → a.at_offset < plen →
      ar.ar_nlvl ≤ a.at_level + fuel →
      ∃ br r, insertLoop x plen mem fuel ar t = some (br, r) ∧ Routed br own ∧ Counted br own ∧
        Kept ar br ∧ br.dflt = ar.dflt ∧ (∀ u, r = some u → ∃ i b, Located br x plen u i b) ∧
        (r ≠ none ↔ Supplied ar x plen mem) := by
  intro fuel
  induction fuel with
  | zero =>
    intro ar t a h _ _ _ ha _ hf
    have := (h.wf.fits ha).level
    omega
  | succ fuel ih =>
    intro ar t a h hc hal hp ha hoff hf
    have hend := h.wf.offset_eq ha
    by_cases hlt : plen > a.at_offset + a.at_bits
    · have hj := h.wf.findex_eq ha x
      have hlev : a.at_level + 1 < ar.ar_nlvl := by
        by_contra hge
        have := (h.wf.fits ha).level
        rw [show a.at_level + 1 = ar.ar_nlvl by omega, h.wf.strides.offset_nlvl] at hend
        omega
      cases hk : a.at_heap (a.strideOf x + a.at_minfringe) with
      | child c =>
        obtain ⟨-, -, b, hb, -, -, hl⟩ := h.wf.child ha hk
        have hstep : insertLoop x plen mem (fuel + 1) ar t = insertLoop x plen mem fuel ar c := by
          simp [insertLoop, ha, hlt, hj, hk]
        have hboff : b.at_offset = a.at_offset + a.at_bits := by
          rw [hend, (h.wf.fits hb).offset, hl]
        rw [hstep]
        exact ih ar c b h hc hal (.child hp ha hj hk) hb (by omega) (by omega)
      | node an =>
        have hj2 : 2 ≤ a.strideOf x + a.at_minfringe := by
          have := h.wf.two_le_minfringe ha
          omega
        have hstep := insertLoop_link h.wf ha fuel mem hlt hlev hj hk
        by_cases hmem : mem (a.at_level + 1) = true
        · set cr := ar.link t (a.strideOf x + a.at_minfringe) a with hcr
          have hkept : Kept ar cr := by
            refine ⟨rfl, rfl, rfl, rfl, fun hu => ?_⟩
            obtain ⟨b, hb, -⟩ := h.wf.link_old ha hu
            exact ⟨b, hb⟩
          have hpath : Path cr x ar.fresh := by
            refine .child (j := a.strideOf x + a.at_minfringe) (hp.link h.wf ha hk)
              (ar.link_parent t _ a) ?_ (by simp)
            rw [← hj]
            rfl
          obtain ⟨br, r, hbr, hr, hcnt, hkept', hdf, hloc, hsup⟩ :=
            ih cr ar.fresh _ (h.link ha hlev hj hk) (hc.link h ha) hal hpath
              (ar.link_new (h.wf.fresh ha) _ a) hlt (show ar.ar_nlvl ≤ a.at_level + 1 + fuel by omega)
          rw [if_pos hmem] at hstep
          exact ⟨br, r, by rw [hstep, hbr], hr, hcnt, hkept.trans hkept',
            hdf.trans (h.wf.link_dflt ha hj2), hloc, hsup.trans (supplied_link h.wf ha hk hmem)⟩
        · rw [if_neg hmem] at hstep
          refine ⟨ar, none, hstep, h, hc, .refl ar, rfl, by simp, ?_⟩
          simp only [ne_eq, not_true_eq_false, false_iff]
          intro hs
          refine hmem (hs _ (by omega) ?_)
          rintro ⟨u, b, hpu, hb, hbl⟩
          obtain ⟨j, c, hj', hc'⟩ := hp.goes_on h.wf hpu ha hb (by omega)
          obtain rfl := Option.some.inj (hj.symm.trans hj')
          simp [hk] at hc'
    · have hidx := h.wf.bindex_eq ha x hoff.le (show plen ≤ _ by omega)
      refine ⟨ar, some t, by simp [insertLoop, ha, hlt], h, hc, .refl ar, rfl, ?_, ?_⟩
      · rintro u ⟨⟩
        exact ⟨_, a, ha, hp, hoff, by omega, hidx⟩
      · simp only [ne_eq, reduceCtorEq, not_false_eq_true, true_iff]
        intro l hl hno
        have hle : l ≤ a.at_level := by
          by_contra hgt
          have := ar.offset_mono (show a.at_level + 1 ≤ l by omega)
          omega
        exact absurd (hp.at_level h.wf ha hle) hno

end Down

end OpenbsdKernel.Art
