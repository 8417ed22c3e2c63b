import OpenbsdKernel.Net.Art.Allot
import OpenbsdKernel.Net.Art.Place

/-!
# Routes of a single table

A table owns the routes that were inserted into it, each at its own index, and every
index shows the owned route nearest above it. Insertion and deletion in a table
change what it owns at one index and allot the rest.
-/
namespace OpenbsdKernel.Art

open Allotment

/-- The routes inserted into each table, by index. -/
abbrev Owners := ℕ → ℕ → Option Node

/-- The routes `own` in their places, and every index showing the nearest of them. -/
structure Routed (ar : Root) (own : Owners) : Prop where
  wf : ar.Wf
  owned : ∀ {t i n}, own t i = some n → ∃ a, Located ar n.key n.an_plen t i a
  shown : ∀ {t a k}, ar.tables t = some a → 2 ≤ k → k < 2 * a.at_minfringe →
    ar.shown t k = near (own t) k
  dflt : ∀ {n}, ar.dflt = some n → n.an_plen = 0

/-- The number of routes of a table of the given size. -/
def ownCount (own : ℕ → Option Node) (minfringe : ℕ) : ℕ :=
  ((Finset.range (2 * minfringe)).filter fun i => (own i).isSome).card

/-- A table is counted once for itself and once for each of its routes. -/
def Counted (ar : Root) (own : Owners) : Prop :=
  ∀ t a, ar.tables t = some a → a.at_refcnt = 1 + (ownCount (own t) a.at_minfringe : ℤ)

def Owners.set (own : Owners) (t i : ℕ) (v : Option Node) : Owners :=
  Function.update own t (Function.update (own t) i v)

theorem Owners.set_self (own : Owners) (t i : ℕ) (v : Option Node) :
    own.set t i v t = Function.update (own t) i v := by
  simp [Owners.set]

theorem Owners.set_of_ne (own : Owners) {t u : ℕ} (i : ℕ) (v : Option Node) (hu : u ≠ t) :
    own.set t i v u = own u := by
  simp [Owners.set, hu]

theorem Owners.set_eq_some {own : Owners} {t i u j : ℕ} {v : Option Node} {n : Node}
    (h : own.set t i v u j = some n) : (u = t ∧ j = i ∧ v = some n) ∨ own u j = some n := by
  by_cases hu : u = t
  · subst hu
    rw [Owners.set_self, Function.update_apply] at h
    split_ifs at h with hj
    · exact .inl ⟨rfl, hj, h⟩
    · exact .inr h
  · rw [Owners.set_of_ne _ _ _ hu] at h
    exact .inr h

theorem ownCount_insert {own : ℕ → Option Node} {m i : ℕ} {n : Node} (hi : i < 2 * m)
    (h : own i = none) : ownCount (Function.update own i (some n)) m = ownCount own m + 1 := by
  have hset : (Finset.range (2 * m)).filter (fun j => (Function.update own i (some n) j).isSome) =
      insert i ((Finset.range (2 * m)).filter fun j => (own j).isSome) := by
    ext j
    by_cases hj : j = i
    · subst hj
      simp [hi]
    · simp [hj]
  rw [ownCount, hset, Finset.card_insert_of_notMem (by simp [h])]
  rfl

theorem ownCount_erase {own : ℕ → Option Node} {m i : ℕ} {n : Node} (hi : i < 2 * m)
    (h : own i = some n) : ownCount (Function.update own i none) m + 1 = ownCount own m := by
  have hback : Function.update (Function.update own i none) i (some n) = own := by
    rw [Function.update_idem, ← h, Function.update_eq_self]
  have hins : ownCount (Function.update (Function.update own i none) i (some n)) m =
      ownCount (Function.update own i none) m + 1 := ownCount_insert hi (by simp)
  rw [hback] at hins
  exact hins.symm

namespace Routed
variable {ar br : Root} {own : Owners} {x : List UInt8} {plen t i : ℕ} {a : Table}

/-- An index shows a route of its own length exactly when it owns it. -/
theorem shown_iff (h : Routed ar own) (hloc : Located ar x plen t i a) {m : Node} :
    ar.shown t i = some m ∧ m.an_plen = plen ↔ own t i = some m := by
  have h2 := hloc.two_le h.wf
  rw [h.shown hloc.table h2 (hloc.lt h.wf)]
  constructor
  · rintro ⟨hnear, hlen⟩
    obtain ⟨d, -, hown, -⟩ := near_eq_some hnear
    obtain ⟨b, hm⟩ := h.owned hown
    obtain rfl : a = b := Option.some.inj (hloc.table.symm.trans hm.table)
    obtain ⟨hlo, -⟩ := h.wf.bindex_spec hm.table hm.index
    obtain ⟨-, hhi⟩ := h.wf.bindex_spec hloc.table hloc.index
    rw [hlen] at hlo
    cases d with
    | zero => simpa using hown
    | succ d =>
      have hle : i / 2 ^ (d + 1) ≤ i / 2 ^ 1 :=
        Nat.div_le_div_left (Nat.pow_le_pow_right (by omega) (by omega)) (by positivity)
      rw [pow_succ] at hhi
      omega
  · intro hown
    obtain ⟨b, hm⟩ := h.owned hown
    exact ⟨near_of_own h2 hown, hm.plen_eq h.wf hloc⟩

theorem own_unique (h : Routed ar own) {u j : ℕ} {n : Node} (ht : own t i = some n)
    (hu : own u j = some n) : u = t ∧ j = i := by
  obtain ⟨a, ha⟩ := h.owned ht
  obtain ⟨b, hb⟩ := h.owned hu
  exact hb.unique h.wf ha

/-- Nothing changes for the routes when the root changes otherwise only. -/
theorem congr (h : Routed ar own) (hl : ar.Like br)
    (hs : ∀ {t a k}, ar.tables t = some a → 2 ≤ k → br.shown t k = ar.shown t k)
    (hd : br.dflt = ar.dflt) : Routed br own := by
  refine ⟨h.wf.like hl, fun hown => ?_, fun {t b k} hb hk hlt => ?_, fun hn => h.dflt (hd ▸ hn)⟩
  · obtain ⟨a, ha⟩ := h.owned hown
    obtain ⟨b, hb, hab⟩ := hl.table ha.table
    exact ⟨b, ha.like hl hab hb⟩
  · obtain ⟨a, ha, hab⟩ := hl.back hb
    rw [hs ha hk]
    exact h.shown ha hk (by rwa [hab.minfringe] at hlt)

end Routed

theorem Located.below_lt {ar : Root} {x : List UInt8} {plen t i j : ℕ} {a : Table} (h : ar.Wf)
    (hloc : Located ar x plen t i a) (hj : Below i (a.at_bits - (plen - a.at_offset)) j) :
    j < 2 * a.at_minfringe := by
  obtain ⟨d, hd, hj⟩ := hj
  obtain ⟨-, hhi⟩ := h.bindex_spec hloc.table hloc.index
  have hw := hloc.within
  have hab := hloc.above
  have hjlt : j < (i + 1) * 2 ^ d := by
    rw [← Nat.div_lt_iff_lt_mul (by positivity)]
    omega
  have hpow : (i + 1) * 2 ^ d ≤ 2 ^ (plen - a.at_offset + 1) * 2 ^ d := Nat.mul_le_mul_right _ hhi
  have hend : 2 ^ (plen - a.at_offset + 1 + d) ≤ 2 ^ (a.at_bits + 1) :=
    Nat.pow_le_pow_right (by omega) (by omega)
  rw [← pow_add] at hpow
  rw [pow_succ] at hend
  rw [(h.fits hloc.table).minfringe]
  omega

theorem Located.depth_le {ar : Root} {x : List UInt8} {plen t i k d : ℕ} {a : Table} (h : ar.Wf)
    (hloc : Located ar x plen t i a) (hk : k < 2 * a.at_minfringe) (hd : k / 2 ^ d = i) :
    d ≤ a.at_bits - (plen - a.at_offset) := by
  obtain ⟨hlo, -⟩ := h.bindex_spec hloc.table hloc.index
  have hw := hloc.within
  have hab := hloc.above
  have hmul : 2 ^ (plen - a.at_offset) * 2 ^ d ≤ i * 2 ^ d := Nat.mul_le_mul_right _ hlo
  have hkd : i * 2 ^ d ≤ k := by
    rw [← hd]
    exact Nat.div_mul_le_self _ _
  have hpow : 2 ^ (plen - a.at_offset + d) < 2 ^ (a.at_bits + 1) := by
    rw [(h.fits hloc.table).minfringe] at hk
    rw [pow_add, pow_succ]
    omega
  have := (Nat.pow_lt_pow_iff_right (by omega)).mp hpow
  omega

section Set
variable {ar : Root} {own : Owners} {x : List UInt8} {plen t i : ℕ} {a : Table}

theorem art_set_spec (hwf : ar.Wf) (hloc : Located ar x plen t i a) (old new : Option Node) :
    ∃ br, art_set ar t i old new = some br ∧
      Shows ar br t (allot old new (a.at_bits - (plen - a.at_offset)) i (ar.shown t)) := by
  obtain ⟨hlo, hhi⟩ := hwf.bindex_spec hloc.table hloc.index
  have hab := hloc.above
  have hwi := hloc.within
  have hmin : a.at_minfringe = 2 ^ a.at_bits := (hwf.fits hloc.table).minfringe
  have hself : Shows ar ar t (ar.shown t) :=
    ⟨.refl ar, fun _ => rfl, fun _ _ => rfl, rfl, rfl⟩
  by_cases hfr : plen - a.at_offset = a.at_bits
  · have hge : ¬ i < a.at_minfringe := by rw [hmin, ← hfr]; omega
    refine ⟨ar.setShown t i new, ?_, ?_⟩
    · cases hk : a.at_heap i with
      | node v => simp [art_set, hloc.table, hge, hk, Root.setShown_node hloc.table hk]
      | child c => simp [art_set, hloc.table, hge, hk, Root.setShown_child hloc.table hk]
    · rw [show a.at_bits - (plen - a.at_offset) = 0 by omega]
      exact hwf.shows_setShown new hloc.table (hloc.two_le hwf) hself
  · have hlt : i < a.at_minfringe := by
      rw [hmin]
      exact hhi.trans_le (Nat.pow_le_pow_right (by omega) (by omega))
    obtain ⟨m, hm⟩ : ∃ m, a.at_bits - (plen - a.at_offset) = m + 1 :=
      Nat.exists_eq_succ_of_ne_zero (by omega)
    obtain ⟨br, hbr, hshow⟩ : ∃ br, art_allot ar t i old new = some br ∧
        Shows ar br t (allot old new (m + 1) i (ar.shown t)) :=
      art_allot_spec hwf hloc.table (hloc.two_le hwf) (by omega) hlo hhi hself
    refine ⟨br, by simp [art_set, hloc.table, hlt, hbr], ?_⟩
    rw [hm]
    exact hshow

/-- Writing the nearest route after a change of what one index owns. -/
theorem Routed.set (h : Routed ar own) (hloc : Located ar x plen t i a) {v : Option Node}
    (hv : ∀ n, v = some n → Located ar n.key n.an_plen t i a) :
    ∃ br, art_set ar t i (near (own t) i) (near (own.set t i v t) i) = some br ∧
      Routed br (own.set t i v) ∧ ar.Like br ∧ br.refs = ar.refs ∧ br.dflt = ar.dflt := by
  obtain ⟨br, hbr, hs⟩ := art_set_spec h.wf hloc (near (own t) i) (near (own.set t i v t) i)
  refine ⟨br, hbr, ⟨h.wf.like hs.like, ?_, ?_, fun hn => h.dflt (hs.dflt ▸ hn)⟩, hs.like,
    hs.refs, hs.dflt⟩
  · intro u j n hown
    have hold : ∃ b, Located ar n.key n.an_plen u j b := by
      obtain ⟨rfl, rfl, hn⟩ | hn := Owners.set_eq_some hown
      · exact ⟨a, hv n hn⟩
      · exact h.owned hn
    obtain ⟨b, hb⟩ := hold
    obtain ⟨c, hc, hbc⟩ := hs.like.table hb.table
    exact ⟨c, hb.like hs.like hbc hc⟩
  · intro u b k hb hk hlt
    obtain ⟨c, hc, hcb⟩ := hs.like.back hb
    rw [hcb.minfringe] at hlt
    by_cases hut : u = t
    · subst hut
      obtain rfl : a = c := Option.some.inj (hloc.table.symm.trans hc)
      rw [hs.here hk]
      have hne : ∀ j, j ≠ i → own.set u i v u j = own u j := by
        intro j hj
        rw [Owners.set_self, Function.update_of_ne hj]
      by_cases hb' : Below i (a.at_bits - (plen - a.at_offset)) k
      · refine allot_near _ i _ (by have := hloc.two_le h.wf; omega) ?_ ?_ ?_ rfl rfl k hb'
        · intro j _ hj
          exact h.shown hloc.table (hj.le.trans' (hloc.two_le h.wf)) (hloc.below_lt h.wf hj)
        · exact fun j hj _ => hne j hj
        · -- a route below would have to be the one shown from above
          intro j m hj hbj hown heq
          obtain ⟨d, -, hown', -⟩ := near_eq_some heq.symm
          have hij := (h.own_unique hown hown').2
          have hle := hbj.le
          have hdiv : i / 2 ^ d ≤ i := Nat.div_le_self _ _
          omega
      · rw [allot_frame _ _ _ hb', h.shown hloc.table hk hlt]
        exact (near_congr fun d => hne _ fun hd =>
          hb' ⟨d, hloc.depth_le h.wf hlt hd, hd⟩).symm
    · rw [hs.others hut hk, Owners.set_of_ne _ _ _ hut]
      exact h.shown hc hk hlt

end Set

theorem Root.shown_modify_refcnt (ar : Root) (t : ℕ) (d : ℤ) (u k : ℕ) :
    (ar.modify t fun at_ => { at_ with at_refcnt := at_.at_refcnt + d }).shown u k =
      ar.shown u k := by
  have hdefault : ∀ c, ((ar.modify t fun at_ => { at_ with at_refcnt := at_.at_refcnt + d }).tables
      c).map Table.at_default = (ar.tables c).map Table.at_default := by
    intro c
    by_cases hc : c = t
    · subst hc
      simp only [Root.modify_tables, if_true, Option.map_map]
      rfl
    · simp [hc]
  have hentry : ∀ a : Table, shownAt (ar.modify t fun at_ =>
      { at_ with at_refcnt := at_.at_refcnt + d }) a k = shownAt ar a k := by
    intro a
    cases hk : a.at_heap k with
    | node v => simp [shownAt, hk]
    | child c => simp only [shownAt, hk, hdefault]
  simp only [Root.shown, hentry]
  by_cases hut : u = t
  · subst hut
    cases hu : ar.tables u with
    | none => simp [hu]
    | some b => simp [hu, shownAt]
  · simp [hut]

theorem Root.like_refcnt (ar : Root) (t : ℕ) (d : ℤ) :
    ar.Like (ar.modify t fun at_ => { at_ with at_refcnt := at_.at_refcnt + d }) :=
  Root.like_modify fun _ _ => ⟨rfl, rfl, rfl, rfl, rfl, rfl, fun _ _ => Iff.rfl⟩

theorem Root.dflt_refcnt (ar : Root) (t : ℕ) (d : ℤ) :
    (ar.modify t fun at_ => { at_ with at_refcnt := at_.at_refcnt + d }).dflt = ar.dflt := by
  by_cases hr : ar.ar_root = t
  · subst hr
    cases ht : ar.tables ar.ar_root with
    | none => simp [Root.dflt, ht]
    | some a => simp [Root.dflt, ht, Table.at_default]
  · simp [Root.dflt, hr]

theorem Root.refs_refcnt (ar : Root) (t : ℕ) (d : ℤ) (u : ℕ) :
    (ar.modify t fun at_ => { at_ with at_refcnt := at_.at_refcnt + d }).refs u =
      if u = t then (ar.refs t).map (· + d) else ar.refs u := by
  by_cases hu : u = t
  · subst hu
    simp [Root.refs, Function.comp_def]
  · simp [Root.refs, hu]

section Table
variable {ar : Root} {own : Owners} {t i : ℕ} {a : Table} {an : Node}

theorem Routed.set_refcnt (h : Routed ar own) (hc : Counted ar own)
    (hloc : Located ar an.key an.an_plen t i a) {v : Option Node} {d : ℤ}
    (hv : ∀ n, v = some n → n = an)
    (hd : (ownCount (own.set t i v t) a.at_minfringe : ℤ) =
      ownCount (own t) a.at_minfringe + d) :
    ∃ br, art_set (ar.modify t fun at_ => { at_ with at_refcnt := at_.at_refcnt + d }) t i
        (near (own t) i) (near (own.set t i v t) i) = some br ∧
      Routed br (own.set t i v) ∧ Counted br (own.set t i v) ∧ ar.Like br ∧
      br.dflt = ar.dflt := by
  set ar' := ar.modify t fun at_ => { at_ with at_refcnt := at_.at_refcnt + d } with har'
  have hl := ar.like_refcnt t d
  have h' : Routed ar' own := h.congr hl
    (fun _ _ => ar.shown_modify_refcnt t d _ _) (ar.dflt_refcnt t d)
  obtain ⟨b, hb, hab⟩ := hl.table hloc.table
  have hloc' : Located ar' an.key an.an_plen t i b := hloc.like hl hab hb
  obtain ⟨br, hbr, hr, hlike, hrefs, hdf⟩ := h'.set hloc' (v := v) fun n hn => by
    rw [hv n hn]
    exact hloc'
  refine ⟨br, hbr, hr, ?_, hl.trans hlike, hdf.trans (ar.dflt_refcnt t d)⟩
  intro u e he
  obtain ⟨c, hcu, hce⟩ := (hl.trans hlike).back he
  have hrefs_u : br.refs u = some e.at_refcnt := by simp [Root.refs, he]
  rw [hrefs, ar.refs_refcnt t d u] at hrefs_u
  rw [hce.minfringe]
  by_cases hut : u = t
  · subst hut
    obtain rfl : a = c := Option.some.inj (hloc.table.symm.trans hcu)
    rw [if_pos rfl] at hrefs_u
    simp only [Root.refs, hcu, Option.map_some, Option.some.injEq] at hrefs_u
    rw [← hrefs_u, hc u a hcu, hd]
    ring
  · rw [if_neg hut] at hrefs_u
    simp only [Root.refs, hcu, Option.map_some, Option.some.injEq] at hrefs_u
    rw [← hrefs_u, hc u c hcu, Owners.set_of_ne _ _ _ hut]

/-- Insertion at an index that owns no route: the node is owned there. -/
theorem art_table_insert_new (h : Routed ar own) (hc : Counted ar own)
    (hloc : Located ar an.key an.an_plen t i a) (hnone : own t i = none) :
    ∃ br, art_table_insert ar t i an = some (br, some an) ∧
      Routed br (own.set t i (some an)) ∧ Counted br (own.set t i (some an)) ∧ ar.Like br ∧
      br.dflt = ar.dflt := by
  have h2 := hloc.two_le h.wf
  have hlt := hloc.lt h.wf
  have hshown := h.shown hloc.table h2 hlt
  have hdup : art_check_duplicate (ar.shown t i) an = false := by
    cases hs : ar.shown t i with
    | none => rfl
    | some m =>
      simp only [art_check_duplicate, decide_eq_false_iff_not]
      intro hlen
      rw [(h.shown_iff hloc).mp ⟨hs, hlen⟩] at hnone
      simp at hnone
  have hnew : near (own.set t i (some an) t) i = some an :=
    near_of_own h2 (by rw [Owners.set_self, Function.update_self])
  obtain ⟨br, hbr, hrest⟩ := h.set_refcnt hc hloc (v := some an) (d := 1)
    (fun n hn => (Option.some.inj hn).symm)
    (by rw [Owners.set_self, ownCount_insert hlt hnone]; push_cast; rfl)
  rw [hnew, ← hshown] at hbr
  exact ⟨br, by simp [art_table_insert, hloc.table, h.wf.shownAt_eq hloc.table, hdup,
    art_table_ref, hbr], hrest⟩

theorem art_table_insert_dup {x : List UInt8} {n : Node} (h : Routed ar own)
    (hloc : Located ar x an.an_plen t i a) (hown : own t i = some n) :
    art_table_insert ar t i an = some (ar, some n) := by
  obtain ⟨hs, hlen⟩ := (h.shown_iff hloc).mpr hown
  simp [art_table_insert, hloc.table, h.wf.shownAt_eq hloc.table, hs, art_check_duplicate, hlen]

theorem art_table_delete_own (h : Routed ar own) (hc : Counted ar own)
    (hloc : Located ar an.key an.an_plen t i a) (hown : own t i = some an) :
    ∃ br, art_table_delete ar t i an = some (br, some an) ∧ Routed br (own.set t i none) ∧
      Counted br (own.set t i none) ∧ ar.Like br ∧ br.dflt = ar.dflt := by
  have h2 := hloc.two_le h.wf
  have hlt := hloc.lt h.wf
  have hshown : near (own t) i = some an := near_of_own h2 hown
  have hs : ar.shown t i = some an := by rw [h.shown hloc.table h2 hlt, hshown]
  have hcount := ownCount_erase hlt hown
  -- the count is one above the number of routes: this is never the last reference
  have hmore : a.at_refcnt + -1 ≠ 0 := by
    rw [hc t a hloc.table, ← hcount]
    push_cast
    omega
  obtain ⟨br, hbr, hrest⟩ := h.set_refcnt hc hloc (v := none) (d := -1) (fun n hn => by simp at hn)
    (by rw [Owners.set_self, ← hcount]; push_cast; ring)
  have hnext : (if i >>> 1 > 1 then (a.at_heap (i >>> 1)).asNode else none) =
      near (own.set t i none t) i := by
    have hup : near (own.set t i none t) i = near (own t) (i / 2) := by
      rw [near_of_none (by rw [Owners.set_self, Function.update_self])]
      refine near_congr fun d => ?_
      have hle : i / 2 / 2 ^ d ≤ i / 2 := Nat.div_le_self _ _
      rw [Owners.set_self, Function.update_of_ne (by omega)]
    rw [hup, Nat.shiftRight_eq_div_pow, pow_one]
    split_ifs with hi
    · rw [← h.shown hloc.table (by omega) (by omega), h.wf.heap_eq hloc.table (by omega)]
      rfl
    · rw [near_of_lt (by omega)]
  rw [hshown, ← hnext] at hbr
  refine ⟨br, ?_, hrest⟩
  have hfree : art_table_free (4 * ar.ar_nlvl + 4) ar t =
      some (ar.modify t fun at_ => { at_ with at_refcnt := at_.at_refcnt + -1 }, false) := by
    simp [art_table_free, hloc.table, hmore, sub_eq_add_neg]
  have hb : (ar.modify t fun at_ => { at_ with at_refcnt := at_.at_refcnt + -1 }).tables t =
      some { a with at_refcnt := a.at_refcnt + -1 } := by simp [hloc.table]
  simp only [art_table_delete, hloc.table, h.wf.shownAt_eq hloc.table, hs, hfree, hb, guard,
    Option.bind_eq_bind, Option.bind_some, if_true, Option.pure_def, Bool.false_eq_true, if_false,
    hbr]

theorem own_of_art_table_delete {br : Root} {r : Option Node} (h : Routed ar own)
    (hloc : Located ar an.key an.an_plen t i a)
    (hdel : art_table_delete ar t i an = some (br, r)) : own t i = some an := by
  refine (h.shown_iff hloc).mp ⟨?_, rfl⟩
  by_contra hne
  simp [art_table_delete, hloc.table, h.wf.shownAt_eq hloc.table, hne, guard] at hdel

end Table

end OpenbsdKernel.Art
