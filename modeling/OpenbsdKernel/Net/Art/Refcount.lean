import OpenbsdKernel.Net.Art.Runs

/-!
# References of the tables

`art_table_get` takes a reference of the new table on itself, where the release in
`art_table_put` supposes one on the parent. A table is therefore counted one above
its own routes, whatever hangs below it, the count never comes to zero and no table
is ever collected.
-/
namespace OpenbsdKernel.Art

/-- `c` hangs from an entry of `t`. -/
def Root.Child (ar : Root) (t c : ℕ) : Prop := ∃ a k, ar.tables t = some a ∧ a.at_heap k = .child c

/-- The nodes of `L` whose prefix belongs to table `t`. -/
def routesOf (ar : Root) (L : Set Node) (t : ℕ) : Set Node :=
  {n | n ∈ L ∧ ∃ i a, Located ar n.key n.an_plen t i a}

/-- What the collection of empty tables is to establish: a table other than the first
has a route of its own or a table below that does, and every table is counted once for
each of its routes and of its subtables. -/
structure Collected (ar : Root) (L : Set Node) : Prop where
  used : ∀ t a, ar.tables t = some a → t ≠ ar.ar_root →
    ∃ u, Relation.ReflTransGen ar.Child t u ∧ (routesOf ar L u).Nonempty
  counts : ∀ t a, ar.tables t = some a →
    a.at_refcnt = (routesOf ar L t).ncard + {c | ar.Child t c}.ncard

theorem Routed.ncard_routesOf {ar : Root} {own : Owners} {L : Set Node} (h : Routed ar own)
    (hL : ∀ n, n ∈ L ↔ Present ar own n) {t : ℕ} {a : Table} (ht : ar.tables t = some a) :
    (routesOf ar L t).ncard = ownCount (own t) a.at_minfringe := by
  have himage : some '' routesOf ar L t =
      ↑(((Finset.range (2 * a.at_minfringe)).filter fun i => (own t i).isSome).image (own t)) := by
    ext v
    simp only [Set.mem_image, Finset.coe_image, Finset.coe_filter, Finset.mem_range,
      Set.mem_ofPred_eq]
    constructor
    · rintro ⟨n, ⟨hn, i, b, hloc⟩, rfl⟩
      have hown := (h.own_iff hloc).mpr ⟨(hL n).mp hn, rfl, fun _ _ => rfl⟩
      obtain rfl : a = b := Option.some.inj (ht.symm.trans hloc.table)
      exact ⟨i, ⟨hloc.lt h.wf, by simp [hown]⟩, hown⟩
    · rintro ⟨i, ⟨-, hi⟩, rfl⟩
      obtain ⟨n, hn⟩ := Option.isSome_iff_exists.mp hi
      obtain ⟨b, hloc⟩ := h.owned hn
      exact ⟨n, ⟨(hL n).mpr (.inr ⟨t, i, hn⟩), i, b, hloc⟩, hn.symm⟩
  rw [← Set.ncard_image_of_injective _ (Option.some_injective _), himage, Set.ncard_coe_finset,
    Finset.card_image_of_injOn, ownCount]
  intro i hi j hj hij
  rw [Finset.mem_coe, Finset.mem_filter] at hi
  obtain ⟨n, hn⟩ := Option.isSome_iff_exists.mp hi.2
  have hij' : own t i = own t j := hij
  exact (h.own_unique hn (hij' ▸ hn)).2.symm

theorem Holds.refcnt_eq {ar : Root} {L : Set Node} (h : Holds ar L) {t : ℕ} {a : Table}
    (ht : ar.tables t = some a) : a.at_refcnt = (routesOf ar L t).ncard + 1 := by
  obtain ⟨own, hr, hc, hL⟩ := h
  rw [hc t a ht, hr.ncard_routesOf hL ht, add_comm]

theorem Root.Wf.exists_childless {ar : Root} (h : ar.Wf) :
    ∃ t a, ar.tables t = some a ∧ ∀ c, ¬ ar.Child t c := by
  by_contra hall
  push Not at hall
  have hdeep : ∀ n, ∃ t a, ar.tables t = some a ∧ a.at_level = n := by
    intro n
    induction n with
    | zero =>
      obtain ⟨r, hr, -, hl⟩ := h.root
      exact ⟨_, r, hr, hl⟩
    | succ n ih =>
      obtain ⟨t, a, ht, hl⟩ := ih
      obtain ⟨c, b, k, hb, hk⟩ := hall t a ht
      obtain rfl : a = b := Option.some.inj (ht.symm.trans hb)
      obtain ⟨-, -, d, hd, -, -, hdl⟩ := h.child ht hk
      exact ⟨c, d, hd, by omega⟩
  obtain ⟨t, a, ht, hl⟩ := hdeep ar.ar_nlvl
  have := (h.fits ht).level
  omega

theorem Holds.not_collected {ar : Root} {L : Set Node} (h : Holds ar L) : ¬ Collected ar L := by
  intro hcol
  obtain ⟨t, a, ht, hno⟩ := h.wf.exists_childless
  have hempty : {c | ar.Child t c} = ∅ := Set.eq_empty_iff_forall_notMem.mpr hno
  have hcount := hcol.counts t a ht
  rw [h.refcnt_eq ht, hempty, Set.ncard_empty] at hcount
  omega

/-- After every call of every run the tables are not what collection is to leave: each
is counted one above its routes, and it stays through all that follows. -/
theorem tables_never_collected {off : ℕ} {mem : ℕ → Bool} {ar : Root} {ops : List Op} {s : State}
    (har : art_attach off mem = some (some ar)) (hs : run ⟨ar, ∅⟩ ops = some s) :
    ¬ Collected s.ar s.inserted ∧
      (∀ t a, s.ar.tables t = some a → a.at_refcnt = (routesOf s.ar s.inserted t).ncard + 1) ∧
      ∀ ops' s', run s ops' = some s' → ∀ t a, s.ar.tables t = some a →
        ∃ b, s'.ar.tables t = some b := by
  have h : Holds s.ar s.inserted := Reachable.holds ⟨off, mem, ar, ops, har, hs⟩
  exact ⟨h.not_collected, fun t a ht => h.refcnt_eq ht,
    fun ops' s' hs' t a ht => (h.run hs').1.tables ht⟩

theorem run_tenNet : ∃ ar s, art_attach 4 (fun _ => true) = some (some ar) ∧
    run ⟨ar, ∅⟩ [.insert tenNet fun _ => true, .delete tenNet] = some s ∧
    s.inserted = ∅ ∧ s.ar.ar_root = 0 ∧ (s.ar.tables 1).isSome := by
  have hrun : ((art_attach 4 fun _ => true).join.bind fun ar =>
      (run ⟨ar, ∅⟩ [.insert tenNet fun _ => true, .delete tenNet]).map fun s =>
        (s.inserted, s.ar.ar_root, (s.ar.tables 1).isSome)) = some (∅, 0, true) := by decide +kernel
  rw [Option.bind_eq_some_iff] at hrun
  obtain ⟨ar, har, hs⟩ := hrun
  rw [Option.map_eq_some_iff] at hs
  obtain ⟨s, hs, heq⟩ := hs
  simp only [Prod.mk.injEq] at heq
  exact ⟨ar, s, Option.join_eq_some_iff.mp har, hs, heq.1, heq.2.1, heq.2.2⟩

theorem tables_never_collected_tenNet : ∃ ar s, art_attach 4 (fun _ => true) = some (some ar) ∧
    run ⟨ar, ∅⟩ [.insert tenNet fun _ => true, .delete tenNet] = some s ∧
    ¬ Collected s.ar s.inserted := by
  obtain ⟨ar, s, har, hs, -⟩ := run_tenNet
  exact ⟨ar, s, har, hs, (tables_never_collected har hs).1⟩

/-- The last route is deleted, and its table is neither used nor gone. -/
theorem empty_table_remains : ∃ ar s, art_attach 4 (fun _ => true) = some (some ar) ∧
    run ⟨ar, ∅⟩ [.insert tenNet fun _ => true, .delete tenNet] = some s ∧
    ∃ t a, s.ar.tables t = some a ∧ t ≠ s.ar.ar_root ∧
      ¬ ∃ u, Relation.ReflTransGen s.ar.Child t u ∧ (routesOf s.ar s.inserted u).Nonempty := by
  obtain ⟨ar, s, har, hs, hnone, hroot, htab⟩ := run_tenNet
  obtain ⟨a, ha⟩ := Option.isSome_iff_exists.mp htab
  refine ⟨ar, s, har, hs, 1, a, ha, by omega, ?_⟩
  rintro ⟨u, -, n, hn, -⟩
  simp [hnone] at hn

end OpenbsdKernel.Art
