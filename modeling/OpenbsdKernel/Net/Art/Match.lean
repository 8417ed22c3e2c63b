import OpenbsdKernel.Net.Art.Runs

/-!
# Lookup

A root as a finite map from prefixes to nodes: the perfect lookup finds the node for a
prefix, and the match the node of the longest prefix that covers an address. The match
carries the best route of the tables it has left behind as its default.
-/
namespace OpenbsdKernel.Art

open Allotment

def Node.Covers (n : Node) (addr : List UInt8) : Prop := SamePrefix n.key addr n.an_plen

/-- `r` is the node of the longest prefix among those of `S` that cover `addr`. -/
def Longest (S : Set Node) (addr : List UInt8) (r : Option Node) : Prop :=
  match r with
  | none => ∀ m ∈ S, ¬ m.Covers addr
  | some n => n ∈ S ∧ n.Covers addr ∧ ∀ m ∈ S, m.Covers addr → m.an_plen ≤ n.an_plen

section Match
variable {ar : Root} {own : Owners} {x : List UInt8} {t : ℕ} {a : Table}

/-- The nodes present for prefixes of at most `p` bits. -/
def upTo (ar : Root) (own : Owners) (p : ℕ) : Set Node := {n | Present ar own n ∧ n.an_plen ≤ p}

theorem Path.located (h : ar.Wf) (hp : Path ar x t) (ha : ar.tables t = some a) {plen : ℕ}
    (hlo : a.at_offset < plen) (hhi : plen ≤ a.at_offset + a.at_bits) :
    Located ar x plen t ((a.strideOf x + a.at_minfringe) / 2 ^ (a.at_offset + a.at_bits - plen)) a := by
  refine ⟨ha, hp, hlo, hhi, ?_⟩
  have hsplit : a.at_minfringe = 2 ^ (plen - a.at_offset) * 2 ^ (a.at_offset + a.at_bits - plen) := by
    rw [← pow_add, (h.fits ha).minfringe]
    congr 1
    omega
  rw [h.bindex_eq ha x hlo.le hhi, hsplit, Nat.add_mul_div_right _ _ (by positivity),
    show a.at_bits - (plen - a.at_offset) = a.at_offset + a.at_bits - plen by omega]

/-- The entry of the fringe improves on the best route of the tables above by the
routes of this one. -/
theorem Routed.longest_step (h : Routed ar own) (hp : Path ar x t) (ha : ar.tables t = some a)
    {d : Option Node} (hd : Longest (upTo ar own a.at_offset) x d) :
    Longest (upTo ar own (a.at_offset + a.at_bits)) x
      (if ar.shown t (a.strideOf x + a.at_minfringe) ≠ none then
        ar.shown t (a.strideOf x + a.at_minfringe) else d) := by
  set j := a.strideOf x + a.at_minfringe with hj
  have h2 := h.wf.two_le_minfringe ha
  have hmin := (h.wf.fits ha).minfringe
  have hjlt : j < 2 * a.at_minfringe := by
    have := h.wf.strideOf_lt ha x
    omega
  -- a covering route of this table is owned at or above the entry
  have hfind : ∀ m, Present ar own m → m.Covers x → a.at_offset < m.an_plen →
      m.an_plen ≤ a.at_offset + a.at_bits →
      own t (j / 2 ^ (a.at_offset + a.at_bits - m.an_plen)) = some m := by
    intro m hm hc hlo hhi
    exact (h.own_iff (hp.located h.wf ha hlo hhi)).mpr ⟨hm, rfl, hc⟩
  rw [h.shown ha (by omega) hjlt]
  cases hnear : near (own t) j with
  | none =>
    rw [if_neg (by simp)]
    have hnone : ∀ m, Present ar own m → m.Covers x → m.an_plen ≤ a.at_offset + a.at_bits →
        m.an_plen ≤ a.at_offset := by
      intro m hm hc hhi
      by_contra hlo
      have hown := hfind m hm hc (by omega) hhi
      have hloc := hp.located h.wf ha (show a.at_offset < m.an_plen by omega) hhi
      rw [near_eq_none hnear (hloc.two_le h.wf)] at hown
      cases hown
    cases d with
    | none => exact fun m hm hc => hd m ⟨hm.1, hnone m hm.1 hc hm.2⟩ hc
    | some n =>
      refine ⟨⟨hd.1.1, hd.1.2.trans (Nat.le_add_right _ _)⟩, hd.2.1, fun m hm hc => ?_⟩
      exact hd.2.2 m ⟨hm.1, hnone m hm.1 hc hm.2⟩ hc
  | some n =>
    rw [if_pos (by simp)]
    obtain ⟨e, he2, hown, hlow⟩ := near_eq_some hnear
    obtain ⟨b, hloc⟩ := h.owned hown
    obtain rfl : a = b := Option.some.inj (ha.symm.trans hloc.table)
    have hlen : n.an_plen = a.at_offset + a.at_bits - e := by
      obtain ⟨hlo, hhi⟩ := h.wf.bindex_spec ha hloc.index
      have habove := hloc.above
      have hw := hloc.within
      have hup : j / 2 ^ e * 2 ^ e ≤ j := Nat.div_mul_le_self _ _
      have hdn : j < (j / 2 ^ e + 1) * 2 ^ e := by
        rw [← Nat.div_lt_iff_lt_mul (by positivity)]
        omega
      have h1 : 2 ^ (n.an_plen - a.at_offset + e) < 2 ^ (a.at_bits + 1) := by
        have := Nat.mul_le_mul_right (2 ^ e) hlo
        rw [← pow_add] at this
        rw [pow_succ]
        omega
      have h3 : 2 ^ a.at_bits < 2 ^ (n.an_plen - a.at_offset + 1 + e) := by
        have := Nat.mul_le_mul_right (2 ^ e) (show j / 2 ^ e + 1 ≤ _ from hhi)
        rw [← pow_add] at this
        omega
      have h1' := (Nat.pow_lt_pow_iff_right (by omega)).mp h1
      have h3' := (Nat.pow_lt_pow_iff_right (by omega)).mp h3
      omega
    have habove := hloc.above
    have hw := hloc.within
    have hexp : a.at_offset + a.at_bits - n.an_plen = e := by omega
    have hloc' := hp.located h.wf ha habove hw
    rw [hexp, ← hj] at hloc'
    refine ⟨⟨.inr ⟨t, _, hown⟩, hw⟩, hloc.same h.wf hloc', fun m hm hc => ?_⟩
    have hmle := hm.2
    by_contra hgt
    have hm' := hfind m hm.1 hc (by omega) hmle
    rw [hlow _ (by omega)] at hm'
    cases hm'

theorem Routed.matchLoop_spec (h : Routed ar own) :
    ∀ (fuel t : ℕ) (a : Table) (d : Option Node), Path ar x t → ar.tables t = some a →
      ar.ar_nlvl ≤ a.at_level + fuel →
      Longest (upTo ar own a.at_offset) x (if a.at_default ≠ none then a.at_default else d) →
      ∃ r, matchLoop ar x fuel t d = some r ∧ Longest {n | Present ar own n} x r := by
  intro fuel
  induction fuel with
  | zero =>
    intro t a d _ ha hl
    have := (h.wf.fits ha).level
    omega
  | succ fuel ih =>
    intro t a d hp ha hl hd
    have hj := h.wf.findex_eq ha x
    have hstep := h.longest_step hp ha hd
    cases hk : a.at_heap (a.strideOf x + a.at_minfringe) with
    | child c =>
      obtain ⟨-, -, b, hb, -, -, hbl⟩ := h.wf.child ha hk
      have hrun : matchLoop ar x (fuel + 1) t d =
          matchLoop ar x fuel c (if a.at_default ≠ none then a.at_default else d) := by
        simp [matchLoop, ha, hj, hk]
      rw [Root.shown_child ha hk hb] at hstep
      rw [hrun]
      refine ih c b _ (.child hp ha hj hk) hb (by omega) ?_
      rw [(h.wf.fits hb).offset, hbl, ← h.wf.offset_eq ha]
      exact hstep
    | node v =>
      rw [Root.shown_node ha hk] at hstep
      refine ⟨if v ≠ none then v else if a.at_default ≠ none then a.at_default else d,
        by simp [matchLoop, ha, hj, hk], ?_⟩
      have hall : ∀ m, Present ar own m → m.Covers x → m.an_plen ≤ a.at_offset + a.at_bits := by
        intro m hm hc
        by_contra hgt
        obtain hdm | ⟨u, i, hown⟩ := hm
        · have := h.dflt hdm
          omega
        · obtain ⟨b, hloc⟩ := h.owned hown
          have hloc' := hloc.congr h.wf hc
          have hw := hloc'.within
          have hlev : a.at_level < b.at_level := by
            by_contra hle
            have := ar.offset_mono (show b.at_level + 1 ≤ a.at_level + 1 by omega)
            rw [h.wf.offset_eq hloc'.table] at hw
            rw [h.wf.offset_eq ha] at hgt
            omega
          obtain ⟨j, c, hj', hk'⟩ := hp.goes_on h.wf hloc'.path ha hloc'.table hlev
          obtain rfl := Option.some.inj (hj.symm.trans hj')
          simp [hk] at hk'
      revert hstep
      generalize (if v ≠ none then v else if a.at_default ≠ none then a.at_default else d) = r
      intro hstep
      cases r with
      | none => exact fun m hm hc => hstep m ⟨hm, hall m hm hc⟩ hc
      | some n => exact ⟨hstep.1.1, hstep.2.1, fun m hm hc => hstep.2.2 m ⟨hm, hall m hm hc⟩ hc⟩

end Match

section Answers
variable {ar : Root} {L : Set Node}

theorem Holds.matched (h : Holds ar L) (x : List UInt8) :
    ∃ r, art_match ar x = some r ∧ Longest L x r := by
  obtain ⟨own, hr, -, hL⟩ := h
  obtain ⟨a, ha, -, hl⟩ := hr.wf.root
  have hset : L = {n | Present ar own n} := Set.ext hL
  have hoff : a.at_offset = 0 := by rw [(hr.wf.fits ha).offset, hl]; rfl
  rw [hset]
  refine hr.matchLoop_spec _ _ a none .root ha (by omega) ?_
  rw [hoff]
  have hd := Root.Wf.dflt_eq ha
  have hzero : ∀ m, m ∈ upTo ar own 0 → a.at_default = some m := by
    intro m hm
    rw [← hd]
    exact hr.dflt_iff.mpr ⟨hm.1, by have := hm.2; omega⟩
  cases hdv : a.at_default with
  | none =>
    intro m hm _
    rw [hzero m hm] at hdv
    cases hdv
  | some n =>
    have hn := hr.dflt_iff.mp (hd.trans hdv)
    rw [if_pos (by simp)]
    refine ⟨⟨hn.1, hn.2.le⟩, fun i hi => absurd hi (by omega), fun m hm _ => ?_⟩
    rw [hzero m hm, Option.some.injEq] at hdv
    rw [hdv]

/-- Perfect lookup: whatever is returned, it has the length asked for exactly when it
is the node present for the prefix. -/
theorem Holds.looked_up (h : Holds ar L) (x : List UInt8) {plen : ℕ} (hplen : plen ≤ ar.ar_alen) :
    ∃ r, art_lookup ar x plen = some r ∧ ∀ n, r = some n ∧ n.an_plen = plen ↔
      n ∈ L ∧ n.an_plen = plen ∧ SamePrefix n.key x plen := by
  obtain ⟨own, hr, -, hL⟩ := h
  have hguard : guard (plen ≤ ar.ar_alen) = some () := by simp [guard, hplen]
  obtain ⟨a, ha, -⟩ := hr.wf.root
  obtain rfl | hpos := Nat.eq_zero_or_pos plen
  · refine ⟨a.at_default, by simp [art_lookup, ha], fun n => ?_⟩
    rw [← Root.Wf.dflt_eq ha, hr.dflt_iff, hL]
    refine ⟨fun hn => ⟨hn.1.1, hn.2, fun i hi => absurd hi (by omega)⟩, fun hn => ?_⟩
    exact ⟨⟨hn.1, hn.2.1⟩, hn.2.1⟩
  · obtain ⟨t, i, b, hfound, hloc⟩ | ⟨hfound, hno⟩ := lookup_place hr.wf x hpos
    · refine ⟨ar.shown t i, ?_, fun n => ?_⟩
      · simp [art_lookup, hguard, hpos.ne', hfound, hloc.table, hloc.index,
          hr.wf.shownAt_eq hloc.table]
      · rw [hr.shown_iff hloc, hr.own_iff hloc, hL]
    · refine ⟨none, by simp [art_lookup, hguard, hpos.ne', hfound], fun n => ?_⟩
      simp only [reduceCtorEq, false_and, false_iff, not_and]
      exact fun hn hlen => hr.not_located hpos hno ((hL n).mp hn) hlen

theorem Holds.longest_unique (h : Holds ar L) {x : List UInt8} {r q : Option Node}
    (hr : Longest L x r) (hq : Longest L x q) : r = q := by
  cases r with
  | none =>
    cases q with
    | none => rfl
    | some m => exact absurd hq.2.1 (hr m hq.1)
  | some n =>
    cases q with
    | none => exact absurd hr.2.1 (hq n hr.1)
    | some m =>
      obtain ⟨own, hro, -, hL⟩ := h
      have hlen : n.an_plen = m.an_plen := Nat.le_antisymm
        (hq.2.2 n hr.1 hr.2.1) (hr.2.2 m hq.1 hq.2.1)
      have hs : n.Same m :=
        ⟨hlen, SamePrefix.trans (hlen ▸ hr.2.1) (SamePrefix.symm hq.2.1)⟩
      rw [hro.same_unique ((hL n).mp hr.1) ((hL m).mp hq.1) hs]

/-- Some entry of some table points to the node. -/
def InHeap (ar : Root) (n : Node) : Prop :=
  ∃ t a k, ar.tables t = some a ∧ 1 ≤ k ∧ k < 2 * a.at_minfringe ∧ a.at_heap k = .node (some n)

theorem Holds.inHeap_iff (h : Holds ar L) {n : Node} : InHeap ar n ↔ n ∈ L := by
  obtain ⟨own, hr, -, hL⟩ := h
  rw [hL]
  constructor
  · rintro ⟨t, a, k, ht, hk1, hk, hn⟩
    obtain rfl | hk2 := Nat.eq_or_lt_of_le hk1
    · have hd : a.at_default = some n := by rw [Table.at_default, hn]; rfl
      by_cases hroot : t = ar.ar_root
      · exact .inl ((Root.Wf.dflt_eq (hroot ▸ ht)).trans hd)
      · obtain ⟨p, b, -, hb, hpk⟩ := hr.wf.parent ht hroot
        obtain ⟨hlo, hhi, -⟩ := hr.wf.child hb hpk
        have h2 := hr.wf.two_le_minfringe hb
        have hnear := hr.shown hb (by omega) hhi
        rw [Root.shown_child hb hpk ht, hd] at hnear
        obtain ⟨d, -, hown, -⟩ := near_eq_some hnear.symm
        exact .inr ⟨p, _, hown⟩
    · have hnear := hr.shown ht hk2 hk
      rw [Root.shown_node ht hn] at hnear
      obtain ⟨d, -, hown, -⟩ := near_eq_some hnear.symm
      exact .inr ⟨t, _, hown⟩
  · rintro (hd | ⟨t, i, hown⟩)
    · obtain ⟨r, hroot, -⟩ := hr.wf.root
      have h2 := hr.wf.two_le_minfringe hroot
      refine ⟨ar.ar_root, r, 1, hroot, le_rfl, by omega, ?_⟩
      rw [hr.wf.default_node hroot, ← Root.Wf.dflt_eq hroot, hd]
    · obtain ⟨a, hloc⟩ := hr.owned hown
      have hs := ((hr.shown_iff hloc).mpr hown).1
      cases hk : a.at_heap i with
      | node v =>
        rw [Root.shown_node hloc.table hk] at hs
        have := hloc.two_le hr.wf
        exact ⟨t, a, i, hloc.table, by omega, hloc.lt hr.wf, by rw [hk, hs]⟩
      | child c =>
        obtain ⟨-, -, b, hb, -⟩ := hr.wf.child hloc.table hk
        have h2 := hr.wf.two_le_minfringe hb
        rw [Root.shown_child hloc.table hk hb] at hs
        exact ⟨c, b, 1, hb, le_rfl, by omega, by rw [hr.wf.default_node hb, hs]⟩

theorem Root.Wf.art_delete_congr (h : ar.Wf) {x y : List UInt8} {plen : ℕ} {an : Node}
    (hxy : SamePrefix x y plen) : art_delete ar an x plen = art_delete ar an y plen := by
  obtain rfl | hpos := Nat.eq_zero_or_pos plen
  · simp [art_delete]
  obtain ⟨t, i, a, hx, hlx⟩ | ⟨hx, hno⟩ := lookup_place h x hpos
  · obtain ⟨u, j, b, hy, hly⟩ | ⟨-, hno⟩ := lookup_place h y hpos
    · obtain ⟨rfl, rfl⟩ := (hlx.congr h hxy).unique h hly
      obtain rfl : a = b := Option.some.inj (hlx.table.symm.trans hly.table)
      simp [art_delete, hpos.ne', hx, hy, hlx.table, hlx.index, hly.index]
    · exact absurd (hlx.congr h hxy) (hno t i a)
  · obtain ⟨u, j, b, -, hly⟩ | ⟨hy, -⟩ := lookup_place h y hpos
    · exact absurd (hly.congr h hxy.symm) (hno u j b)
    · simp [art_delete, hpos.ne', hx, hy]

end Answers

/-- Every reachable root is a finite map from prefixes to nodes. Insertion returns the
node present for the prefix, or adds the new one, as memory suffices; deletion removes a
node; `art_lookup` finds the node for a prefix and `art_match` the longest cover. -/
theorem art_refines_map {s : State} (h : Reachable s) :
    (∀ n ∈ s.inserted, ∀ m ∈ s.inserted, n.Same m → n = m) ∧
    (∀ an : Node, an.an_plen ≤ s.ar.ar_alen → ∃ br r,
      art_insert s.ar an an.key an.an_plen (fun _ => true) = some (br, r) ∧
        ((∃ n ∈ s.inserted, n.Same an ∧ r = some n ∧
            (Op.insert an fun _ => true).step s = some ⟨br, s.inserted⟩) ∨
          (∀ n ∈ s.inserted, ¬ n.Same an) ∧ r = some an ∧
            (Op.insert an fun _ => true).step s = some ⟨br, insert an s.inserted⟩)) ∧
    (∀ an ∈ s.inserted, ∃ br, art_delete s.ar an an.key an.an_plen = some (br, some an) ∧
      (Op.delete an).step s = some ⟨br, s.inserted.erase an⟩) ∧
    (∀ addr plen, plen ≤ s.ar.ar_alen → ∃ r, art_lookup s.ar addr plen = some r ∧
      ∀ n, r = some n ∧ n.an_plen = plen ↔
        n ∈ s.inserted ∧ n.an_plen = plen ∧ SamePrefix n.key addr plen) ∧
    ∀ addr, ∃ r, art_match s.ar addr = some r ∧ Longest s.inserted addr r := by
  have hh := h.holds
  refine ⟨?_, fun an hplen => ?_, fun an han => ?_, fun addr plen hplen => ?_, fun addr => ?_⟩
  · obtain ⟨own, hr, -, hL⟩ := hh
    exact fun n hn m hm hs => hr.same_unique ((hL n).mp hn) ((hL m).mp hm) hs
  · obtain ⟨br, r, hbr, -, hsup, ⟨hnone, -⟩ | ⟨n, hn, rfl, hs, -⟩ | ⟨rfl, hno, -⟩⟩ :=
      hh.insert hplen fun _ => true
    · exact absurd (fun _ _ _ => rfl) (hsup.mp hnone)
    · refine ⟨br, some n, hbr, .inl ⟨n, hn, hs, rfl, ?_⟩⟩
      have hrec : (if n = an then insert an s.inserted else s.inserted) = s.inserted := by
        split_ifs with heq
        · exact Finset.insert_eq_of_mem (heq ▸ hn)
        · rfl
      simp [Op.step, Op.exec, hbr, Op.record, hrec]
    · exact ⟨br, some an, hbr, .inr ⟨hno, rfl, by simp [Op.step, Op.exec, hbr, Op.record]⟩⟩
  · obtain ⟨br, hbr, -, -⟩ := hh.delete han
    exact ⟨br, hbr, by simp [Op.step, Op.exec, hbr, Op.record]⟩
  · exact hh.looked_up addr hplen
  · exact hh.matched addr

theorem art_refines_map_three : ∃ s, Reachable s ∧ s.inserted = {tenNet, tenWide, anyNet} ∧
    (∃ r, art_lookup s.ar [10, 0, 0, 9] 0 = some r ∧ ∀ n, r = some n ∧ n.an_plen = 0 ↔
      n ∈ s.inserted ∧ n.an_plen = 0 ∧ SamePrefix n.key [10, 0, 0, 9] 0) ∧
    ∃ r, art_match s.ar [10, 0, 0, 9] = some r ∧ Longest s.inserted [10, 0, 0, 9] r := by
  obtain ⟨s, hs, hL⟩ := reachable_three
  obtain ⟨-, -, -, hlook, hmatch⟩ := art_refines_map hs
  exact ⟨s, hs, hL, hlook _ 0 (Nat.zero_le _), hmatch _⟩

end OpenbsdKernel.Art
