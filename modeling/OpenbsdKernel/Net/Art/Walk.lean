import OpenbsdKernel.Net.Art.Runs

/-!
# Iteration

`art_walk` tells the routes from their allotted copies by looking one index up. At
an index that owns a route the two differ, at every other index they are equal, the
first two indices of a table and its default route included; and the order in which
the indices are taken leaves none out and takes none twice.
-/
namespace OpenbsdKernel.Art

open Allotment

theorem mem_doubles {m fuel i k : ℕ} :
    k ∈ doubles m fuel i ↔ ∃ e < fuel, k = i * 2 ^ e ∧ k < m := by
  induction fuel generalizing i with
  | zero => simp [doubles]
  | succ fuel ih =>
    simp only [doubles, Nat.shiftLeft_eq, pow_one]
    split_ifs with hi
    · rw [List.mem_cons, ih]
      constructor
      · rintro (rfl | ⟨e, he, rfl, hlt⟩)
        · exact ⟨0, by omega, by simp, hi⟩
        · exact ⟨e + 1, by omega, by rw [pow_succ', mul_assoc], hlt⟩
      · rintro ⟨e, he, rfl, hlt⟩
        cases e with
        | zero => simp
        | succ e => exact .inr ⟨e, by omega, by rw [pow_succ', mul_assoc], hlt⟩
    · simp only [List.not_mem_nil, false_iff, not_exists, not_and]
      rintro e - rfl hlt
      have := Nat.le_mul_of_pos_right i (show 0 < 2 ^ e by positivity)
      omega

theorem nodup_doubles {m fuel i : ℕ} (hi : 0 < i) : (doubles m fuel i).Nodup := by
  induction fuel generalizing i with
  | zero => simp [doubles]
  | succ fuel ih =>
    simp only [doubles, Nat.shiftLeft_eq, pow_one]
    split_ifs
    · refine List.nodup_cons.mpr ⟨?_, ih (by omega)⟩
      rw [mem_doubles]
      rintro ⟨e, -, heq, -⟩
      have := Nat.le_mul_of_pos_right (i * 2) (show 0 < 2 ^ e by positivity)
      omega
    · exact List.nodup_nil

theorem odd_part_unique {o p d e : ℕ} (ho : o % 2 = 1) (hp : p % 2 = 1)
    (h : o * 2 ^ d = p * 2 ^ e) : o = p := by
  have hco : ∀ q k : ℕ, q % 2 = 1 → Nat.Coprime q (2 ^ k) := by
    intro q k hq
    exact Nat.Coprime.pow_right k (Nat.coprime_two_right.mpr (Nat.odd_iff.mpr hq))
  refine Nat.dvd_antisymm ?_ ?_
  · exact (hco o e ho).dvd_of_dvd_mul_right ⟨2 ^ d, h.symm⟩
  · exact (hco p d hp).dvd_of_dvd_mul_right ⟨2 ^ e, h⟩

theorem max_two_mul {j e : ℕ} (hj : j % 2 = 1) : ∃ d, max j 2 * 2 ^ e = j * 2 ^ d := by
  obtain rfl | hne := eq_or_ne j 1
  · exact ⟨e + 1, by rw [pow_succ']; norm_num⟩
  · exact ⟨e, by rw [max_eq_left (by omega)]⟩

section Order
variable {ar : Root} {t : ℕ} {a : Table}

theorem Root.Wf.mem_naturalOrder (h : ar.Wf) (ht : ar.tables t = some a) {k : ℕ} :
    k ∈ naturalOrder a ↔ 2 ≤ k ∧ k < a.at_minfringe := by
  have hmin := (h.fits ht).minfringe
  simp only [naturalOrder, List.mem_flatMap, List.mem_filter, List.mem_range, decide_eq_true_eq,
    mem_doubles]
  constructor
  · rintro ⟨j, -, e, -, rfl, hlt⟩
    have := Nat.le_mul_of_pos_right (max j 2) (show 0 < 2 ^ e by positivity)
    exact ⟨by omega, hlt⟩
  · rintro ⟨hk, hlt⟩
    obtain ⟨e, o, ho, hko⟩ := Nat.exists_eq_two_pow_mul_odd (show k ≠ 0 by omega)
    rw [mul_comm] at hko
    have hodd := Nat.odd_iff.mp ho
    have hle := Nat.le_mul_of_pos_right o (show 0 < 2 ^ e by positivity)
    have hpow : 2 ^ e ≤ k := hko ▸ Nat.le_mul_of_pos_left _ (by omega)
    obtain rfl | hne := eq_or_ne o 1
    · cases e with
      | zero => omega
      | succ e =>
        have hexp : e + 1 < a.at_bits :=
          (Nat.pow_lt_pow_iff_right (show 1 < 2 by omega)).mp (by omega)
        exact ⟨1, ⟨by omega, rfl⟩, e, by omega, by rw [hko, pow_succ']; norm_num, hlt⟩
    · have hexp : e < a.at_bits :=
        (Nat.pow_lt_pow_iff_right (show 1 < 2 by omega)).mp (by omega)
      exact ⟨o, ⟨by omega, hodd⟩, e, hexp, by rw [hko, max_eq_left (by omega)], hlt⟩

theorem nodup_naturalOrder (a : Table) : (naturalOrder a).Nodup := by
  refine List.nodup_flatMap.mpr ⟨fun j _ => nodup_doubles (by omega), ?_⟩
  have hnd : ((List.range a.at_minfringe).filter (· % 2 = 1)).Nodup := List.nodup_range.filter _
  refine hnd.imp_of_mem fun {i j} hi hj hne => ?_
  simp only [List.mem_filter, decide_eq_true_eq] at hi hj
  intro k hki hkj
  obtain ⟨d, -, hd, -⟩ := mem_doubles.mp hki
  obtain ⟨e, -, he, -⟩ := mem_doubles.mp hkj
  obtain ⟨d', hd'⟩ := max_two_mul (e := d) hi.2
  obtain ⟨e', he'⟩ := max_two_mul (e := e) hj.2
  exact hne (odd_part_unique hi.2 hj.2 (by rw [← hd', ← hd, he, he']))

end Order

section Visit
variable {ar : Root} {own : Owners} {t i : ℕ} {a : Table}

theorem Routed.default_ne (h : Routed ar own) (ht : ar.tables t = some a) {n : Node}
    (hown : own t i = some n) : a.at_default ≠ some n := by
  intro hd
  by_cases hroot : t = ar.ar_root
  · have := h.dflt ((Root.Wf.dflt_eq (hroot ▸ ht)).trans hd)
    have := h.plen_pos hown
    omega
  · obtain ⟨p, b, -, hb, hk⟩ := h.wf.parent ht hroot
    obtain ⟨hlo, hhi, c, hc, -, -, hl⟩ := h.wf.child hb hk
    obtain rfl : a = c := Option.some.inj (ht.symm.trans hc)
    have h2 := h.wf.two_le_minfringe hb
    have hnear := h.shown hb (by omega) hhi
    rw [Root.shown_child hb hk ht, hd] at hnear
    obtain ⟨d, -, hown', -⟩ := near_eq_some hnear.symm
    obtain ⟨rfl, -⟩ := h.own_unique hown hown'
    obtain rfl : a = b := Option.some.inj (ht.symm.trans hb)
    omega

theorem Routed.visit_eq (h : Routed ar own) (ht : ar.tables t = some a) (hi : 2 ≤ i)
    (hlt : i < 2 * a.at_minfringe) {σ : Type} (f : Node → σ → ℤ × σ) (st : σ) :
    visit f a (ar.shown t i) i st = match own t i with
      | none => (0, st)
      | some n => f n st := by
  have hup : a.at_heap (i >>> 1) =
      .node (if i / 2 = 1 then a.at_default else near (own t) (i / 2)) := by
    rw [Nat.shiftRight_eq_div_pow, pow_one]
    split_ifs with h1
    · rw [h1]
      exact h.wf.default_node ht
    · rw [h.wf.heap_eq ht (by omega), h.shown ht (by omega) (by omega)]
  cases hown : own t i with
  | none =>
    rw [h.shown ht hi hlt, near_of_none hown]
    cases hn : near (own t) (i / 2) with
    | none => rfl
    | some n =>
      have h1 : i / 2 ≠ 1 := by
        intro h1
        rw [near_of_lt (by omega)] at hn
        cases hn
      simp [visit, hup, h1, hn]
  | some n =>
    rw [h.shown ht hi hlt, near_of_own hi hown]
    have hne : (if i / 2 = 1 then a.at_default else near (own t) (i / 2)) ≠ some n := by
      split_ifs with h1
      · exact h.default_ne ht hown
      · intro hn
        obtain ⟨d, -, hown', -⟩ := near_eq_some hn
        have := (h.own_unique hown hown').2
        have := Nat.div_le_self (i / 2) (2 ^ d)
        omega
    simp [visit, hup, hne]

end Visit

/-- The nodes that the walk of a table calls its argument on, in order. -/
def tableCalls (ar : Root) (own : Owners) : ℕ → ℕ → List Node
  | 0, _ => []
  | fuel + 1, t =>
    match ar.tables t with
    | none => []
    | some at_ =>
      (naturalOrder at_).flatMap (fun i => (own t i).toList) ++
        (List.range' at_.at_minfringe at_.at_minfringe).flatMap fun i =>
          (own t i).toList ++ match at_.at_heap i with
            | .child c => tableCalls ar own fuel c
            | .node _ => []

example (ar : Root) (own : Owners) (t : ℕ) : tableCalls ar own 0 t = [] := by simp [tableCalls]

section Calls
variable {ar : Root} {own : Owners} {σ : Type} {f : Node → σ → ℤ × σ}

theorem visitAll_calls {g : ℕ → σ → Option (ℤ × σ)} {calls : ℕ → List Node} {is : List ℕ}
    (hg : ∀ i ∈ is, ∀ st, g i st = some (0, (calls i).foldl (fun st n => (f n st).2) st)) (st : σ) :
    visitAll g is st = some (0, (is.flatMap calls).foldl (fun st n => (f n st).2) st) := by
  induction is generalizing st with
  | nil => rfl
  | cons i is ih =>
    simp only [visitAll, hg i List.mem_cons_self st, List.flatMap_cons, List.foldl_append]
    exact ih (fun j hj => hg j (List.mem_cons_of_mem _ hj)) _

theorem Routed.table_walk (h : Routed ar own) (hf : ∀ n st, (f n st).1 = 0) :
    ∀ (fuel t : ℕ) (a : Table) (st : σ), ar.tables t = some a → ar.ar_nlvl ≤ a.at_level + fuel →
      art_table_walk ar f fuel t st =
        some (0, (tableCalls ar own fuel t).foldl (fun st n => (f n st).2) st) := by
  have hf' : ∀ n st, f n st = (0, (f n st).2) := fun n st => Prod.ext (hf n st) rfl
  intro fuel
  induction fuel with
  | zero =>
    intro t a st ht hl
    have := (h.wf.fits ht).level
    omega
  | succ fuel ih =>
    intro t a st ht hl
    have h2 := h.wf.two_le_minfringe ht
    have hvisit : ∀ i, 2 ≤ i → i < 2 * a.at_minfringe → ∀ st,
        visit f a (ar.shown t i) i st =
          (0, (own t i).toList.foldl (fun st n => (f n st).2) st) := by
      intro i hi hlt st
      rw [h.visit_eq ht hi hlt]
      cases own t i with
      | none => rfl
      | some n => exact hf' n st
    have hinner : ∀ i ∈ naturalOrder a, ∀ st,
        some (visit f a (a.at_heap i).asNode i st) =
          some (0, ((own t i).toList).foldl (fun st n => (f n st).2) st) := by
      intro i hi st
      obtain ⟨hi2, him⟩ := (h.wf.mem_naturalOrder ht).mp hi
      rw [h.wf.heap_eq ht him]
      exact congrArg some (hvisit i hi2 (by omega) st)
    simp only [art_table_walk, tableCalls, ht, Option.bind_eq_bind, Option.bind_some,
      Option.pure_def, visitAll_calls hinner, ne_eq, not_true_eq_false, if_false,
      List.foldl_append]
    refine visitAll_calls (fun i hi st => ?_) _
    have him := List.mem_range'_1.mp hi
    rw [h.wf.shownAt_eq ht, Option.bind_some, hvisit i (by omega) (by omega), List.foldl_append]
    simp only [not_true_eq_false, if_false]
    cases hk : a.at_heap i with
    | node v => rfl
    | child c =>
      obtain ⟨-, -, b, hb, -, -, hbl⟩ := h.wf.child ht hk
      exact ih c b _ hb (by omega)

theorem Path.of_child (h : ar.Wf) {x : List UInt8} {t k c : ℕ} {a : Table}
    (ht : ar.tables t = some a) (hk : a.at_heap k = .child c) (hp : Path ar x c) : Path ar x t := by
  cases hp with
  | root => exact absurd rfl (h.child_ne_root ht hk)
  | child hq hd _ hk' =>
    obtain ⟨rfl, -⟩ := h.child_unique ht hd hk hk'
    exact hq

/-- A call is on a route owned at or below the table, and the route leads there. -/
theorem Routed.of_mem_calls (h : Routed ar own) {n : Node} :
    ∀ (fuel t : ℕ) (a : Table), ar.tables t = some a → n ∈ tableCalls ar own fuel t →
      (∃ u i, own u i = some n) ∧ Path ar n.key t ∧ a.at_offset < n.an_plen := by
  intro fuel
  induction fuel with
  | zero => intro t a _ hn; simp [tableCalls] at hn
  | succ fuel ih =>
    intro t a ht hn
    have howned : ∀ i, n ∈ (own t i).toList →
        (∃ u i, own u i = some n) ∧ Path ar n.key t ∧ a.at_offset < n.an_plen := by
      intro i hi
      have hown := Option.mem_toList.mp hi
      obtain ⟨b, hb⟩ := h.owned hown
      obtain rfl : a = b := Option.some.inj (ht.symm.trans hb.table)
      exact ⟨⟨t, i, hown⟩, hb.path, hb.above⟩
    simp only [tableCalls, ht, List.mem_append, List.mem_flatMap] at hn
    obtain ⟨i, -, hi⟩ | ⟨i, -, hi | hi⟩ := hn
    · exact howned i hi
    · exact howned i hi
    · cases hk : a.at_heap i with
      | node v => simp [hk] at hi
      | child c =>
        obtain ⟨-, -, b, hb, -, -, hbl⟩ := h.wf.child ht hk
        rw [hk] at hi
        obtain ⟨hown, hp, hoff⟩ := ih c b hb hi
        rw [(h.wf.fits hb).offset, hbl, ← h.wf.offset_eq ht] at hoff
        exact ⟨hown, hp.of_child h.wf ht hk, by omega⟩

theorem Routed.mem_calls (h : Routed ar own) {n : Node} {u i : ℕ} (hown : own u i = some n) :
    ∀ (fuel t : ℕ) (a b : Table), ar.tables t = some a → ar.tables u = some b →
      Path ar n.key t → a.at_level ≤ b.at_level → ar.ar_nlvl ≤ a.at_level + fuel →
      n ∈ tableCalls ar own fuel t := by
  obtain ⟨d, hloc⟩ := h.owned hown
  intro fuel
  induction fuel with
  | zero =>
    intro t a b ht _ _ _ hl
    have := (h.wf.fits ht).level
    omega
  | succ fuel ih =>
    intro t a b ht hu hp hle hl
    obtain rfl : b = d := Option.some.inj (hu.symm.trans hloc.table)
    simp only [tableCalls, ht, List.mem_append, List.mem_flatMap]
    obtain hlt | heq := Nat.lt_or_eq_of_le hle
    · obtain ⟨j, c, hj, hk⟩ := hp.goes_on h.wf hloc.path ht hu hlt
      obtain ⟨hlo, hhi, e, he, -, -, hel⟩ := h.wf.child ht hk
      refine .inr ⟨j, List.mem_range'_1.mpr ⟨hlo, by omega⟩, .inr ?_⟩
      rw [hk]
      exact ih c e b he hu (.child hp ht hj hk) (by omega) (by omega)
    · obtain rfl := hp.unique h.wf hloc.path ht hu heq
      obtain rfl : a = b := Option.some.inj (ht.symm.trans hu)
      have h2 := hloc.two_le h.wf
      have hhi := hloc.lt h.wf
      by_cases hfr : i < a.at_minfringe
      · exact .inl ⟨i, (h.wf.mem_naturalOrder ht).mpr ⟨h2, hfr⟩, Option.mem_toList.mpr hown⟩
      · exact .inr ⟨i, List.mem_range'_1.mpr ⟨by omega, by omega⟩,
          .inl (Option.mem_toList.mpr hown)⟩

theorem Routed.nodup_calls (h : Routed ar own) :
    ∀ (fuel t : ℕ), (tableCalls ar own fuel t).Nodup := by
  intro fuel
  induction fuel with
  | zero => intro t; simp [tableCalls]
  | succ fuel ih =>
    intro t
    cases ht : ar.tables t with
    | none => simp [tableCalls, ht]
    | some a =>
      have htoList : ∀ i, (own t i).toList.Nodup := by
        intro i
        cases own t i <;> simp
      -- what is called below an index does not belong to the table itself
      have hbelow : ∀ {i k c : ℕ} {n : Node}, n ∈ (own t i).toList → a.at_heap k = .child c →
          n ∉ tableCalls ar own fuel c := by
        intro i k c n hi hk hn
        obtain ⟨d, hloc⟩ := h.owned (Option.mem_toList.mp hi)
        obtain rfl : a = d := Option.some.inj (ht.symm.trans hloc.table)
        obtain ⟨-, -, b, hb, -, -, hbl⟩ := h.wf.child ht hk
        obtain ⟨-, -, hoff⟩ := h.of_mem_calls fuel c b hb hn
        rw [(h.wf.fits hb).offset, hbl, ← h.wf.offset_eq ht] at hoff
        have := hloc.within
        omega
      have hown : ∀ {i j : ℕ} {n : Node}, n ∈ (own t i).toList → n ∈ (own t j).toList → i = j :=
        fun hi hj => (h.own_unique (Option.mem_toList.mp hj) (Option.mem_toList.mp hi)).2
      have hsub : ∀ {i : ℕ} {n : Node}, n ∈ (match a.at_heap i with
          | .child c => tableCalls ar own fuel c
          | .node _ => []) → ∃ c, a.at_heap i = .child c ∧ n ∈ tableCalls ar own fuel c := by
        intro i n hn
        cases hk : a.at_heap i with
        | node v => simp [hk] at hn
        | child c => exact ⟨c, rfl, by simpa [hk] using hn⟩
      simp only [tableCalls, ht]
      refine List.Nodup.append ?_ ?_ ?_
      · refine List.nodup_flatMap.mpr ⟨fun i _ => htoList i, ?_⟩
        exact (nodup_naturalOrder a).imp fun hne n hi hj => hne (hown hi hj)
      · refine List.nodup_flatMap.mpr ⟨fun i _ => ?_, ?_⟩
        · refine List.Nodup.append (htoList i) ?_ ?_
          · cases hk : a.at_heap i with
            | node v => exact List.nodup_nil
            | child c => exact ih c
          · intro n hi hn
            obtain ⟨c, hk, hc⟩ := hsub hn
            exact hbelow hi hk hc
        · have hnd : (List.range' a.at_minfringe a.at_minfringe).Nodup := List.nodup_range'
          refine hnd.imp fun {i j} hne n hi hj => ?_
          rcases List.mem_append.mp hi with hi | hi <;> rcases List.mem_append.mp hj with hj | hj
          · exact hne (hown hi hj)
          · obtain ⟨c, hk, hc⟩ := hsub hj
            exact hbelow hi hk hc
          · obtain ⟨c, hk, hc⟩ := hsub hi
            exact hbelow hj hk hc
          · -- two subtables of one table are not on the way of one address
            obtain ⟨c, hk, hc⟩ := hsub hi
            obtain ⟨d, hk', hd⟩ := hsub hj
            obtain ⟨-, -, b, hb, -, hbi, hbl⟩ := h.wf.child ht hk
            obtain ⟨-, -, e, he, -, hei, hel⟩ := h.wf.child ht hk'
            obtain ⟨-, hp, -⟩ := h.of_mem_calls fuel c b hb hc
            obtain ⟨-, hq, -⟩ := h.of_mem_calls fuel d e he hd
            obtain rfl := hp.unique h.wf hq hb he (by omega)
            exact hne (h.wf.child_unique ht ht hk hk').2.symm
      · intro n hi hj
        obtain ⟨i, hi, hni⟩ := List.mem_flatMap.mp hi
        obtain ⟨j, hj, hnj⟩ := List.mem_flatMap.mp hj
        rcases List.mem_append.mp hnj with hnj | hnj
        · have := hown hni hnj
          have := (h.wf.mem_naturalOrder ht).mp hi
          have := List.mem_range'_1.mp hj
          omega
        · obtain ⟨c, hk, hc⟩ := hsub hnj
          exact hbelow hni hk hc

end Calls

/-- The walk of a root that holds `L` is a sequence of calls on the nodes of `L`, one each. -/
theorem Holds.walk {ar : Root} {L : Set Node} (h : Holds ar L) :
    ∃ calls : List Node, calls.Nodup ∧ (∀ n, n ∈ calls ↔ n ∈ L) ∧
      ∀ (σ : Type) (f : Node → σ → ℤ × σ) (st : σ), (∀ n st, (f n st).1 = 0) →
        art_walk ar f st = some (0, calls.foldl (fun st n => (f n st).2) st) := by
  obtain ⟨own, hr, hc, hL⟩ := h
  obtain ⟨r, hroot, -, hl⟩ := hr.wf.root
  have hd : ar.dflt = r.at_default := Root.Wf.dflt_eq hroot
  refine ⟨ar.dflt.toList ++ tableCalls ar own ar.ar_nlvl ar.ar_root, ?_, fun n => ?_,
    fun σ f st hf => ?_⟩
  · refine List.Nodup.append (by cases ar.dflt <;> simp) (hr.nodup_calls _ _) fun n hn hn' => ?_
    obtain ⟨-, -, hoff⟩ := hr.of_mem_calls _ _ r hroot hn'
    have := hr.dflt (Option.mem_toList.mp hn)
    omega
  · rw [List.mem_append, hL, Present, Option.mem_toList]
    refine or_congr Iff.rfl ⟨fun hn => (hr.of_mem_calls _ _ r hroot hn).1, ?_⟩
    rintro ⟨u, i, hown⟩
    obtain ⟨b, hb⟩ := hr.owned hown
    exact hr.mem_calls hown _ _ r b hroot hb.table .root (by omega) (by omega)
  · have hwalk := fun st => hr.table_walk hf ar.ar_nlvl ar.ar_root r st hroot (by omega)
    rw [List.foldl_append, hd]
    cases hdv : r.at_default with
    | none => simp [art_walk, hroot, hdv, hwalk]
    | some an => simp [art_walk, hroot, hdv, hwalk, hf an st]

/-- `art_walk` with a function that returns 0 calls it on every inserted node, once. -/
theorem art_walk_visits {s : State} (h : Reachable s) :
    ∃ calls : List Node, calls.Nodup ∧ (∀ n, n ∈ calls ↔ n ∈ s.inserted) ∧
      ∀ (σ : Type) (f : Node → σ → ℤ × σ) (st : σ), (∀ n st, (f n st).1 = 0) →
        art_walk s.ar f st = some (0, calls.foldl (fun st n => (f n st).2) st) :=
  h.holds.walk

/-- The default route, a route and one at the end of a stride above its table. -/
theorem art_walk_visits_three : ∃ s, Reachable s ∧ s.inserted = {tenNet, tenWide, anyNet} ∧
    ∃ calls : List Node, calls.Nodup ∧ (∀ n, n ∈ calls ↔ n ∈ s.inserted) ∧
      ∀ (σ : Type) (f : Node → σ → ℤ × σ) (st : σ), (∀ n st, (f n st).1 = 0) →
        art_walk s.ar f st = some (0, calls.foldl (fun st n => (f n st).2) st) := by
  obtain ⟨s, hs, hL⟩ := reachable_three
  exact ⟨s, hs, hL, art_walk_visits hs⟩

end OpenbsdKernel.Art
