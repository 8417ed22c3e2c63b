import OpenbsdKernel.Net.Art.Grow

/-!
# Sequences of insertions and deletions

A root holds a set of nodes when every one of them is in the place of its prefix, or
is the default route, and nothing else is anywhere. Insertion and deletion are
followed on that set.
-/
namespace OpenbsdKernel.Art

open Allotment

/-- Two nodes for one prefix. -/
def Node.Same (n m : Node) : Prop := n.an_plen = m.an_plen ∧ SamePrefix n.key m.key m.an_plen

/-- The routes of a root: the default route and those that the tables own. -/
def Present (ar : Root) (own : Owners) (n : Node) : Prop :=
  ar.dflt = some n ∨ ∃ t i, own t i = some n

/-- The root holds exactly the nodes of `L`. -/
def Holds (ar : Root) (L : Set Node) : Prop :=
  ∃ own, Routed ar own ∧ Counted ar own ∧ ∀ n, n ∈ L ↔ Present ar own n

section Own
variable {ar : Root} {own : Owners} {t i : ℕ} {a : Table} {an : Node}

theorem Routed.plen_pos (h : Routed ar own) {n : Node} (hown : own t i = some n) :
    0 < n.an_plen := by
  obtain ⟨a, ha⟩ := h.owned hown
  exact ha.above.trans_le' (Nat.zero_le _)

theorem Routed.plen_le (h : Routed ar own) {n : Node} (hp : Present ar own n) :
    n.an_plen ≤ ar.ar_alen := by
  obtain hd | ⟨t, i, hown⟩ := hp
  · simp [h.dflt hd]
  · obtain ⟨a, ha⟩ := h.owned hown
    have hw := ha.within
    have hle := ar.offset_mono (show a.at_level + 1 ≤ ar.ar_nlvl from (h.wf.fits ha.table).level)
    rw [h.wf.offset_eq ha.table] at hw
    rw [h.wf.strides.offset_nlvl] at hle
    omega

theorem Routed.own_iff (h : Routed ar own) {x : List UInt8} {plen : ℕ}
    (hloc : Located ar x plen t i a) {n : Node} :
    own t i = some n ↔ Present ar own n ∧ n.an_plen = plen ∧ SamePrefix n.key x plen := by
  constructor
  · intro hown
    obtain ⟨b, hb⟩ := h.owned hown
    have hlen := hb.plen_eq h.wf hloc
    exact ⟨.inr ⟨t, i, hown⟩, hlen, (hlen ▸ hb).same h.wf hloc⟩
  · rintro ⟨hd | ⟨u, j, hown⟩, hlen, hsame⟩
    · have := h.dflt hd
      have := hloc.above
      omega
    · obtain ⟨b, hb⟩ := h.owned hown
      obtain ⟨rfl, rfl⟩ := ((hlen ▸ hb).congr h.wf hsame).unique h.wf hloc
      exact hown

theorem Routed.not_located (h : Routed ar own) {x : List UInt8} {plen : ℕ} (hpos : 0 < plen)
    (hno : ∀ t i a, ¬ Located ar x plen t i a) {n : Node} (hn : Present ar own n)
    (hlen : n.an_plen = plen) : ¬ SamePrefix n.key x plen := by
  intro hsame
  obtain hd | ⟨u, j, hown⟩ := hn
  · have := h.dflt hd
    omega
  · obtain ⟨b, hb⟩ := h.owned hown
    exact hno u j b ((hlen ▸ hb).congr h.wf hsame)

theorem Routed.dflt_iff (h : Routed ar own) {n : Node} :
    ar.dflt = some n ↔ Present ar own n ∧ n.an_plen = 0 := by
  constructor
  · exact fun hd => ⟨.inl hd, h.dflt hd⟩
  · rintro ⟨hd | ⟨t, i, hown⟩, hlen⟩
    · exact hd
    · have := h.plen_pos hown
      omega

theorem Routed.same_unique (h : Routed ar own) {n m : Node} (hn : Present ar own n)
    (hm : Present ar own m) (hs : n.Same m) : n = m := by
  obtain hd | ⟨t, i, hown⟩ := hm
  · have hd' := h.dflt_iff.mpr ⟨hn, hs.1.trans (h.dflt hd)⟩
    exact Option.some.inj (hd'.symm.trans hd)
  · obtain ⟨a, ha⟩ := h.owned hown
    exact Option.some.inj (((h.own_iff ha).mpr ⟨hn, hs⟩).symm.trans hown)

theorem present_insert {br : Root} (hdf : br.dflt = ar.dflt) (hnone : own t i = none) (m : Node) :
    Present br (own.set t i (some an)) m ↔ m = an ∨ Present ar own m := by
  constructor
  · rintro (hd | ⟨u, j, hown⟩)
    · exact .inr (.inl (hdf ▸ hd))
    · obtain ⟨-, -, hm⟩ | hold := Owners.set_eq_some hown
      · exact .inl (Option.some.inj hm).symm
      · exact .inr (.inr ⟨u, j, hold⟩)
  · rintro (rfl | hd | ⟨u, j, hown⟩)
    · exact .inr ⟨t, i, by rw [Owners.set_self, Function.update_self]⟩
    · exact .inl (hdf.trans hd)
    · refine .inr ⟨u, j, ?_⟩
      by_cases hut : u = t
      · subst hut
        have hji : j ≠ i := by rintro rfl; simp [hnone] at hown
        rw [Owners.set_self, Function.update_of_ne hji, hown]
      · rw [Owners.set_of_ne _ _ _ hut, hown]

theorem present_delete {br : Root} (h : Routed ar own) (hdf : br.dflt = ar.dflt)
    (hown : own t i = some an) (m : Node) :
    Present br (own.set t i none) m ↔ Present ar own m ∧ m ≠ an := by
  constructor
  · rintro (hd | ⟨u, j, hown'⟩)
    · rw [hdf] at hd
      refine ⟨.inl hd, ?_⟩
      rintro rfl
      have := h.dflt hd
      have := h.plen_pos hown
      omega
    · obtain ⟨-, -, hm⟩ | hold := Owners.set_eq_some hown'
      · simp at hm
      · refine ⟨.inr ⟨u, j, hold⟩, ?_⟩
        rintro rfl
        obtain ⟨rfl, rfl⟩ := h.own_unique hown hold
        simp [Owners.set_self] at hown'
  · rintro ⟨hd | ⟨u, j, hown'⟩, hne⟩
    · exact .inl (hdf.trans hd)
    · refine .inr ⟨u, j, ?_⟩
      by_cases hut : u = t
      · subst hut
        have hji : j ≠ i := by
          rintro rfl
          exact hne (Option.some.inj (hown'.symm.trans hown))
        rw [Owners.set_self, Function.update_of_ne hji, hown']
      · rw [Owners.set_of_ne _ _ _ hut, hown']

end Own

section Default
variable {ar : Root} {own : Owners} {v : Option Node}

theorem Root.Wf.dflt_eq {ar : Root} {a : Table} (ha : ar.tables ar.ar_root = some a) :
    ar.dflt = a.at_default := by
  simp [Root.dflt, ha]

theorem Routed.setDefault (h : Routed ar own) (hc : Counted ar own)
    (hv : ∀ n, v = some n → n.an_plen = 0) :
    Routed (ar.setHeap ar.ar_root 1 (.node v)) own ∧
      Counted (ar.setHeap ar.ar_root 1 (.node v)) own ∧
      ar.Like (ar.setHeap ar.ar_root 1 (.node v)) ∧
      (ar.setHeap ar.ar_root 1 (.node v)).dflt = v := by
  obtain ⟨r, hr, -⟩ := h.wf.root
  have hnode := h.wf.default_node hr
  have hl : ar.Like (ar.setHeap ar.ar_root 1 (.node v)) := Root.like_setHeap v hr (by simp [hnode])
  have hd : (ar.setHeap ar.ar_root 1 (.node v)).dflt = v := by
    simp [Root.dflt, hr, Table.at_default, Entry.asNode]
  refine ⟨⟨h.wf.like hl, fun hown => ?_, fun {t b k} hb hk hlt => ?_, fun hn => hv _ (hd ▸ hn)⟩,
    ?_, hl, hd⟩
  · obtain ⟨a, ha⟩ := h.owned hown
    obtain ⟨b, hb, hab⟩ := hl.table ha.table
    exact ⟨b, ha.like hl hab hb⟩
  · obtain ⟨a, ha, hab⟩ := hl.back hb
    rw [h.wf.shown_setHeap hr hnode ha, if_neg, h.shown ha hk (by rwa [hab.minfringe] at hlt)]
    rintro (⟨-, rfl⟩ | ⟨-, hk'⟩)
    · omega
    · exact h.wf.child_ne_root ha hk' rfl
  · intro t b hb
    obtain ⟨a, ha, hab⟩ := hl.back hb
    have hrefs := congrFun (ar.refs_setHeap ar.ar_root 1 (.node v)) t
    simp only [Root.refs, hb, ha, Option.map_some, Option.some.injEq] at hrefs
    rw [hrefs, hab.minfringe]
    exact hc t a ha

end Default

section Operations
variable {ar : Root} {L : Set Node} {an : Node}

theorem Holds.wf (h : Holds ar L) : ar.Wf := by
  obtain ⟨own, hr, -⟩ := h
  exact hr.wf

/-- `art_insert` finds the node there is for the prefix, runs out of memory, or adds
the node. -/
theorem Holds.insert (h : Holds ar L) (hplen : an.an_plen ≤ ar.ar_alen) (mem : ℕ → Bool) :
    ∃ br r, art_insert ar an an.key an.an_plen mem = some (br, r) ∧ Kept ar br ∧
      (r = none ↔ ¬ Supplied ar an.key an.an_plen mem) ∧
      ((r = none ∧ Holds br L) ∨
        (∃ n ∈ L, r = some n ∧ n.Same an ∧ Holds br L) ∨
        (r = some an ∧ (∀ n ∈ L, ¬ n.Same an) ∧ Holds br (Insert.insert an L))) := by
  obtain ⟨own, hr, hc, hL⟩ := h
  have hguard : guard (an.an_plen ≤ ar.ar_alen) = some () := by simp [guard, hplen]
  obtain ⟨r0, hr0, hr0p, hr0l⟩ := hr.wf.root
  by_cases hz : an.an_plen = 0
  · have hdf := Root.Wf.dflt_eq hr0
    have hsup : Supplied ar an.key an.an_plen mem := fun l hl => absurd hl (by omega)
    have hz' : ∀ m : Node, m.Same an ↔ m.an_plen = 0 := by
      intro m
      rw [Node.Same, hz]
      exact ⟨fun e => e.1, fun e => ⟨e, fun i hi => absurd hi (by omega)⟩⟩
    cases hd : r0.at_default with
    | some n =>
      have hn : ar.dflt = some n := hdf.trans hd
      refine ⟨ar, some n, ?_, .refl ar, by simp [hsup], .inr (.inl ⟨n, (hL n).mpr (.inl hn), rfl,
        (hz' n).mpr (hr.dflt hn), own, hr, hc, hL⟩)⟩
      simp [art_insert, hz, hr0, hd, art_check_duplicate, hr.dflt hn]
    | none =>
      obtain ⟨hr', hc', hl, hd'⟩ := hr.setDefault hc (v := some an)
        fun n hn => (Option.some.inj hn) ▸ hz
      refine ⟨ar.setHeap ar.ar_root 1 (.node (some an)), some an, ?_, hl.kept, by simp [hsup],
        .inr (.inr ⟨rfl, ?_, own, hr', hc', fun m => ?_⟩)⟩
      · simp [art_insert, hz, hr0, hd, art_check_duplicate]
      · intro n hn hs
        have hnd := hr.dflt_iff.mpr ⟨(hL n).mp hn, (hz' n).mp hs⟩
        rw [hdf, hd] at hnd
        cases hnd
      · rw [Set.mem_insert_iff, hL, Present, Present, hd', hdf, hd]
        simp only [Option.some.injEq, reduceCtorEq, false_or, eq_comm]
  · obtain ⟨br, r, hbr, hr', hc', hkept, hdf, hfound, hsup⟩ :=
      insertLoop_spec an.key mem ar.ar_nlvl ar ar.ar_root r0 hr hc hplen .root hr0
        (by rw [(hr.wf.fits hr0).offset, hr0l]; exact Nat.pos_of_ne_zero hz) (by omega)
    have hL' : ∀ n, n ∈ L ↔ Present br own n := by
      intro n
      rw [hL, Present, Present, hdf]
    cases r with
    | none =>
      exact ⟨br, none, by simp [art_insert, hguard, hz, hbr], hkept, by simpa using hsup,
        .inl ⟨rfl, own, hr', hc', hL'⟩⟩
    | some t =>
      obtain ⟨i, b, hloc⟩ := hfound t rfl
      have hstep : art_insert ar an an.key an.an_plen mem = art_table_insert br t i an := by
        simp [art_insert, hguard, hz, hbr, hloc.table, hloc.index]
      cases hown : own t i with
      | some n =>
        obtain ⟨hn, hlen, hs⟩ := (hr'.own_iff hloc).mp hown
        refine ⟨br, some n, ?_, hkept, by simpa using hsup, .inr (.inl ⟨n, (hL' n).mpr hn, rfl,
          ⟨hlen, hs⟩, own, hr', hc', hL'⟩)⟩
        rw [hstep, art_table_insert_dup hr' hloc hown]
      | none =>
        obtain ⟨cr, hcr, hr'', hc'', hl, hdf'⟩ := art_table_insert_new hr' hc' hloc hown
        refine ⟨cr, some an, by rw [hstep, hcr], hkept.trans hl.kept, by simpa using hsup,
          .inr (.inr ⟨rfl, ?_, own.set t i (some an), hr'', hc'', fun m => ?_⟩)⟩
        · intro n hn hs
          rw [(hr'.own_iff hloc).mpr ⟨(hL' n).mp hn, hs⟩] at hown
          cases hown
        · rw [Set.mem_insert_iff, present_insert hdf' hown, hL']

theorem Holds.delete (h : Holds ar L) (han : an ∈ L) :
    ∃ br, art_delete ar an an.key an.an_plen = some (br, some an) ∧ Kept ar br ∧
      Holds br (L \ {an}) := by
  obtain ⟨own, hr, hc, hL⟩ := h
  have hpres := (hL an).mp han
  have hguard : guard (an.an_plen ≤ ar.ar_alen) = some () := by simp [guard, hr.plen_le hpres]
  obtain ⟨r0, hr0, -⟩ := hr.wf.root
  obtain hd | ⟨t, i, hown⟩ := hpres
  · have hz := hr.dflt hd
    have hd0 : r0.at_default = some an := (Root.Wf.dflt_eq hr0).symm.trans hd
    obtain ⟨hr', hc', hl, hd'⟩ := hr.setDefault hc (v := none) fun n hn => by simp at hn
    refine ⟨_, by simp [art_delete, hz, hr0, hd0, art_check_duplicate], hl.kept, own, hr',
      hc', fun m => ?_⟩
    rw [Set.mem_sdiff, Set.mem_singleton_iff, hL, Present, Present, hd', hd]
    constructor
    · rintro ⟨hm | hm, hne⟩
      · exact absurd (Option.some.inj hm).symm hne
      · exact .inr hm
    · rintro (hm | ⟨t, i, hown⟩)
      · cases hm
      · refine ⟨.inr ⟨t, i, hown⟩, ?_⟩
        rintro rfl
        have := hr.plen_pos hown
        omega
  · obtain ⟨a, hloc⟩ := hr.owned hown
    have hz := hr.plen_pos hown
    obtain ⟨br, hbr, hr', hc', hl, hdf⟩ := art_table_delete_own hr hc hloc hown
    refine ⟨br, ?_, hl.kept, own.set t i none, hr', hc', fun m => ?_⟩
    · obtain ⟨u, j, b, hfound, hloc'⟩ | ⟨-, hno⟩ := lookup_place hr.wf an.key hz
      · obtain ⟨rfl, rfl⟩ := hloc'.unique hr.wf hloc
        simp [art_delete, hguard, hz.ne', hfound, hloc'.table, hloc'.index, hbr]
      · exact absurd hloc (hno t i a)
    · rw [Set.mem_sdiff, Set.mem_singleton_iff, hL, present_delete hr hdf hown]

/-- Whatever the node, a deletion that returns removes what it returns. -/
theorem Holds.of_delete (h : Holds ar L) {br : Root} {r : Option Node}
    (hdel : art_delete ar an an.key an.an_plen = some (br, r)) :
    Kept ar br ∧ ((r = none ∧ Holds br L) ∨ ∃ n ∈ L, r = some n ∧ Holds br (L \ {n})) := by
  have hplen : an.an_plen ≤ ar.ar_alen := by
    by_contra hgt
    simp [art_delete, guard, hgt] at hdel
  have hguard : guard (an.an_plen ≤ ar.ar_alen) = some () := by simp [guard, hplen]
  by_cases han : an ∈ L
  · obtain ⟨cr, hcr, hkept, hcr'⟩ := h.delete han
    rw [hdel, Option.some.injEq, Prod.mk.injEq] at hcr
    obtain ⟨rfl, rfl⟩ := hcr
    exact ⟨hkept, .inr ⟨an, han, rfl, hcr'⟩⟩
  have hself := h
  obtain ⟨own, hr, hc, hL⟩ := h
  obtain ⟨r0, hr0, -⟩ := hr.wf.root
  by_cases hz : an.an_plen = 0
  · cases hd : r0.at_default with
    | none =>
      simp [art_delete, hz, hr0, hd, art_check_duplicate] at hdel
      obtain ⟨rfl, rfl⟩ := hdel
      exact ⟨.refl ar, .inl ⟨rfl, hself⟩⟩
    | some n =>
      -- the default route goes whichever node was given
      have hn : ar.dflt = some n := (Root.Wf.dflt_eq hr0).trans hd
      have hnz := hr.dflt hn
      have hsame : art_delete ar an an.key an.an_plen = art_delete ar n n.key n.an_plen := by
        simp [art_delete, hz, hnz, hr0, hd, art_check_duplicate]
      obtain ⟨cr, hcr, hkept, hcr'⟩ := hself.delete ((hL n).mpr (.inl hn))
      rw [← hsame, hdel, Option.some.injEq, Prod.mk.injEq] at hcr
      obtain ⟨rfl, rfl⟩ := hcr
      exact ⟨hkept, .inr ⟨n, (hL n).mpr (.inl hn), rfl, hcr'⟩⟩
  · obtain ⟨u, j, b, hfound, hloc⟩ | ⟨hfound, -⟩ := lookup_place hr.wf an.key (Nat.pos_of_ne_zero hz)
    · have hstep : art_delete ar an an.key an.an_plen = art_table_delete ar u j an := by
        simp [art_delete, hguard, hz, hfound, hloc.table, hloc.index]
      rw [hstep] at hdel
      exact absurd ((hL an).mpr (.inr ⟨u, j, own_of_art_table_delete hr hloc hdel⟩)) han
    · simp [art_delete, hguard, hz, hfound] at hdel
      obtain ⟨rfl, rfl⟩ := hdel
      exact ⟨.refl ar, .inl ⟨rfl, hself⟩⟩

end Operations

/-- The first table as `art_attach` makes it, without routes. -/
def Table.initial (bits : List ℕ) : Table :=
  { at_parent := none
    at_index := 2 ^ 32 - 1
    at_minfringe := 2 ^ bits.getD 0 0
    at_level := 0
    at_bits := bits.getD 0 0
    at_offset := 0
    at_refcnt := 1
    at_heap := fun _ => .node none }

def Root.initial (bits : List ℕ) (nlvl alen off : ℕ) : Root :=
  { ar_root := 0
    ar_bits := bits
    ar_nlvl := nlvl
    ar_alen := alen
    ar_off := off
    tables := Function.update (fun _ => none) 0 (some (Table.initial bits))
    fresh := 1 }

theorem art_attach_eq {off : ℕ} {mem : ℕ → Bool} {ar : Root}
    (h : art_attach off mem = some (some ar)) :
    ar = Root.initial [16, 8, 8] 3 32 off ∨
      ar = Root.initial (List.replicate 16 8) 16 128 off := by
  by_cases hmem : mem 0 = true
  · by_cases h4 : off = 4
    · subst h4
      left
      simp [art_attach, art_table_get, guard, hmem, art_table_ref, Root.modify] at h
      rw [← h]
      simp [Root.initial, Table.initial]
    · by_cases h8 : off = 8
      · subst h8
        right
        simp [art_attach, art_table_get, guard, hmem, art_table_ref, Root.modify] at h
        rw [← h]
        simp [Root.initial, Table.initial]
      · simp [art_attach, h4, h8] at h
  · by_cases h4 : off = 4 <;> by_cases h8 : off = 8 <;>
      simp [art_attach, art_table_get, guard, hmem, h4, h8] at h

section Initial
variable {bits : List ℕ} {nlvl alen off : ℕ}

theorem Root.initial_root : (Root.initial bits nlvl alen off).tables 0 =
    some (Table.initial bits) := by
  simp [Root.initial]

theorem Root.of_initial {t : ℕ} {a : Table} (h : (Root.initial bits nlvl alen off).tables t = some a) :
    t = 0 ∧ a = Table.initial bits := by
  by_cases ht : t = 0
  · subst ht
    exact ⟨rfl, Option.some.inj (h.symm.trans Root.initial_root)⟩
  · simp [Root.initial, ht] at h

theorem Root.initial_wf (h : (Root.initial bits nlvl alen off).Strides) :
    (Root.initial bits nlvl alen off).Wf := by
  have hpos : 0 < nlvl := h.nlvl_pos
  refine ⟨h, fun ha => ?_, fun ha => ?_, ⟨_, Root.initial_root, rfl, rfl⟩, fun ha hk => ?_,
    fun ha hne => ?_⟩
  · obtain ⟨rfl, -⟩ := Root.of_initial ha
    exact Nat.one_pos
  · obtain ⟨-, rfl⟩ := Root.of_initial ha
    exact ⟨hpos, rfl, rfl, rfl⟩
  · obtain ⟨-, rfl⟩ := Root.of_initial ha
    cases hk
  · exact absurd (Root.of_initial ha).1 hne

theorem Root.initial_holds (h : (Root.initial bits nlvl alen off).Strides) :
    Holds (Root.initial bits nlvl alen off) ∅ := by
  have hd : (Root.initial bits nlvl alen off).dflt = none := Root.Wf.dflt_eq Root.initial_root
  refine ⟨fun _ _ => none, ⟨Root.initial_wf h, by simp, fun {t a k} ha _ _ => ?_, by simp [hd]⟩,
    fun t a ha => ?_, fun n => by simp [Present, hd]⟩
  · obtain ⟨rfl, rfl⟩ := Root.of_initial ha
    rw [near_empty, Root.shown_node ha rfl]
  · obtain ⟨rfl, rfl⟩ := Root.of_initial ha
    simp [ownCount, Table.initial]

end Initial

theorem art_attach_holds {off : ℕ} {mem : ℕ → Bool} {ar : Root}
    (h : art_attach off mem = some (some ar)) : Holds ar ∅ := by
  obtain rfl | rfl := art_attach_eq h
  · exact Root.initial_holds (.inl ⟨rfl, rfl, rfl⟩)
  · exact Root.initial_holds (.inr ⟨rfl, rfl, rfl⟩)

/-- A call on a root. A node is inserted and deleted at its own prefix; `mem` says
for which levels a table could be allocated. -/
inductive Op where
  | insert (an : Node) (mem : ℕ → Bool)
  | delete (an : Node)

/-- A root and the nodes that were inserted and not deleted since. -/
structure State where
  ar : Root
  inserted : Finset Node

def Op.exec (ar : Root) : Op → Option (Root × Option Node)
  | .insert an mem => art_insert ar an an.key an.an_plen mem
  | .delete an => art_delete ar an an.key an.an_plen

/-- The nodes inserted, from what the call returned: an insertion that returns another
node has found that one, a deletion has removed the node it returns. -/
def Op.record (L : Finset Node) : Op → Option Node → Finset Node
  | .insert an _, some n => if n = an then Insert.insert an L else L
  | .delete _, some n => L.erase n
  | _, none => L

def Op.step (s : State) (op : Op) : Option State := do
  let (ar, r) ← op.exec s.ar
  return ⟨ar, op.record s.inserted r⟩

/-- A sequence of calls; it stops where an assertion fails. -/
def run (s : State) (ops : List Op) : Option State := ops.foldlM Op.step s

/-- What can come about from a root that has just been attached. -/
def Reachable (s : State) : Prop :=
  ∃ off mem ar ops, art_attach off mem = some (some ar) ∧ run ⟨ar, ∅⟩ ops = some s

theorem Holds.step {s s' : State} {op : Op} (h : Holds s.ar s.inserted)
    (hs : op.step s = some s') : Kept s.ar s'.ar ∧ Holds s'.ar s'.inserted := by
  simp only [Op.step, Option.bind_eq_bind, Option.bind_eq_some_iff, Option.pure_def,
    Option.some.injEq] at hs
  obtain ⟨⟨br, r⟩, hexec, rfl⟩ := hs
  cases op with
  | insert an mem =>
    have hplen : an.an_plen ≤ s.ar.ar_alen := by
      by_contra hgt
      simp [Op.exec, art_insert, guard, hgt] at hexec
    obtain ⟨cr, q, hcr, hkept, -, hcase⟩ := h.insert hplen mem
    simp only [Op.exec, hcr, Option.some.injEq, Prod.mk.injEq] at hexec
    obtain ⟨rfl, rfl⟩ := hexec
    refine ⟨hkept, ?_⟩
    obtain ⟨rfl, hL⟩ | ⟨n, hn, rfl, -, hL⟩ | ⟨rfl, -, hL⟩ := hcase
    · exact hL
    · simp only [Op.record]
      split_ifs with heq
      · subst heq
        rwa [Finset.insert_eq_of_mem hn]
      · exact hL
    · simpa [Op.record] using hL
  | delete an =>
    obtain ⟨hkept, ⟨rfl, hL⟩ | ⟨n, hn, rfl, hL⟩⟩ := h.of_delete hexec
    · exact ⟨hkept, hL⟩
    · refine ⟨hkept, ?_⟩
      simpa [Op.record, Finset.coe_erase] using hL

theorem Holds.run {s s' : State} {ops : List Op} (h : Holds s.ar s.inserted)
    (hs : run s ops = some s') : Kept s.ar s'.ar ∧ Holds s'.ar s'.inserted := by
  induction ops generalizing s with
  | nil =>
    obtain rfl : s = s' := by simpa [Art.run] using hs
    exact ⟨.refl s.ar, h⟩
  | cons op ops ih =>
    simp only [Art.run, List.foldlM_cons, Option.bind_eq_bind, Option.bind_eq_some_iff] at hs
    obtain ⟨t, ht, hs⟩ := hs
    obtain ⟨hk, hL⟩ := h.step ht
    obtain ⟨hk', hL'⟩ := ih hL hs
    exact ⟨hk.trans hk', hL'⟩

theorem Reachable.holds {s : State} (h : Reachable s) : Holds s.ar s.inserted := by
  obtain ⟨off, mem, ar, ops, har, hs⟩ := h
  have h0 : Holds ar ((∅ : Finset Node) : Set Node) := by
    simpa using art_attach_holds har
  exact (Holds.run (s := ⟨ar, ∅⟩) h0 hs).2

/-- A route to 10.0.0.0/24. -/
def tenNet : Node := ⟨1, [10, 0, 0, 0], 24⟩

/-- A route to 10.0.0.0/16, the fringe entry that the table of the other hangs from. -/
def tenWide : Node := ⟨2, [10, 0, 0, 0], 16⟩

def anyNet : Node := ⟨3, [], 0⟩

theorem reachable_three : ∃ s, Reachable s ∧ s.inserted = {tenNet, tenWide, anyNet} := by
  have hrun : ((art_attach 4 fun _ => true).join.bind fun ar =>
      (run ⟨ar, ∅⟩ [.insert tenNet fun _ => true, .insert tenWide fun _ => true,
        .insert anyNet fun _ => true]).map State.inserted) = some {tenNet, tenWide, anyNet} := by
    decide
  rw [Option.bind_eq_some_iff] at hrun
  obtain ⟨ar, har, hs⟩ := hrun
  rw [Option.map_eq_some_iff] at hs
  obtain ⟨s, hs, hL⟩ := hs
  exact ⟨s, ⟨4, _, ar, _, Option.join_eq_some_iff.mp har, hs⟩, hL⟩

end OpenbsdKernel.Art
