import OpenbsdKernel.Net.Art.Runs

/-!
# The recursion behind `art_allot`

The comment over `art_allot` gives the recursion that its labels stand for. The
recursion goes into every subtree, the labels only into those that show the node to be
replaced. Both replace it at a set of indices of the table, and as long as routes become
more specific on the way down, the indices that the labels leave out do not show it.
-/
namespace OpenbsdKernel.Art

open Allotment

/-- Replace `old` at index `k`: in the entry, or as the default of the subtable. -/
def substitute (t : ℕ) (old new : Option Node) (ar : Root) (at_ : Table) (k : ℕ) : Option Root :=
  match at_.at_heap k with
  | .child c => do
    let ct ← ar.tables c
    if ct.at_heap 1 = .node old then return ar.setHeap c 1 (.node new) else return ar
  | .node an => if an = old then some (ar.setHeap t k (.node new)) else some ar

/-- The recursion of the comment. -/
def allotRecursion (t : ℕ) (old new : Option Node) : ℕ → Root → ℕ → Option Root
  | 0, _, _ => none
  | fuel + 1, ar, k => do
    let at_ ← ar.tables t
    let ar ← substitute t old new ar at_ k
    if k ≥ at_.at_minfringe then return ar
    let k := k <<< 1
    let ar ← allotRecursion t old new fuel ar k
    allotRecursion t old new fuel ar (k + 1)

/-- A table as the operations keep it: a complete tree of indices, with routes outside the
fringe and routes or subtables in it. -/
structure Root.HeapOf (ar : Root) (t : ℕ) (a : Table) : Prop where
  table : ar.tables t = some a
  minfringe : a.at_minfringe = 2 ^ a.at_bits
  node : ∀ {k}, k < a.at_minfringe → ∃ v, a.at_heap k = .node v
  child : ∀ {k c}, k < 2 * a.at_minfringe → a.at_heap k = .child c →
    ∃ b v, ar.tables c = some b ∧ b.at_heap 1 = .node v

theorem Root.Wf.heapOf {ar : Root} (h : ar.Wf) {t : ℕ} {a : Table} (ht : ar.tables t = some a) :
    ar.HeapOf t a := by
  refine ⟨ht, (h.fits ht).minfringe, fun hk => ⟨_, h.heap_node ht hk⟩, fun _ hk => ?_⟩
  obtain ⟨-, -, b, hb, -⟩ := h.child ht hk
  exact ⟨b, _, hb, h.default_node hb⟩

/-- Word `j` of table `u` keeps the route that some index in `S` of table `t` shows. -/
def Root.Keeps (ar : Root) (t : ℕ) (S : Set ℕ) (u j : ℕ) : Prop :=
  u = t ∧ j ∈ S ∨ j = 1 ∧ ∃ k ∈ S, ∃ a, ar.tables t = some a ∧ a.at_heap k = .child u

open Classical in
/-- What such a word is after `old` has been replaced at the indices in `S`. -/
noncomputable def Root.turned (ar : Root) (t : ℕ) (old new : Option Node) (S : Set ℕ) (u j : ℕ)
    (e : Entry) : Entry :=
  if e = .node old ∧ ar.Keeps t S u j then .node new else e

/-- The root in which all indices in `S` that showed `old` show `new`. -/
noncomputable def Root.replaced (ar : Root) (t : ℕ) (old new : Option Node) (S : Set ℕ) : Root :=
  { ar with tables := fun u => (ar.tables u).map fun b =>
      { b with at_heap := fun j => ar.turned t old new S u j (b.at_heap j) } }

section Replaced
variable {ar : Root} {t : ℕ} {a : Table} {old new : Option Node} {S T : Set ℕ}

theorem Root.turned_of_keeps {u j : ℕ} (h : ar.Keeps t S u j) :
    ar.turned t old new S u j (.node old) = .node new := by
  simp [Root.turned, h]

theorem Root.turned_of_ne {u j : ℕ} {e : Entry} (h : e ≠ .node old) :
    ar.turned t old new S u j e = e := by
  simp [Root.turned, h]

theorem Root.turned_of_not_keeps {u j : ℕ} {e : Entry} (h : ¬ ar.Keeps t S u j) :
    ar.turned t old new S u j e = e := by
  simp [Root.turned, h]

theorem Root.turned_node {u j : ℕ} {v : Option Node} :
    ∃ w, ar.turned t old new S u j (.node v) = .node w := by
  rw [Root.turned]
  split_ifs
  · exact ⟨new, rfl⟩
  · exact ⟨v, rfl⟩

@[simp] theorem Root.turned_eq_child {u j c : ℕ} {e : Entry} :
    ar.turned t old new S u j e = .child c ↔ e = .child c := by
  rw [Root.turned]
  split_ifs with h
  · simp [h.1]
  · rfl

theorem Root.replaced_table {u : ℕ} {b : Table} (hu : ar.tables u = some b) :
    (ar.replaced t old new S).tables u =
      some { b with at_heap := fun j => ar.turned t old new S u j (b.at_heap j) } := by
  simp [Root.replaced, hu]

theorem Root.eq_replaced {br : Root} (hbr : br = { ar with tables := br.tables })
    (hnone : ∀ {u}, ar.tables u = none → br.tables u = none)
    (hsome : ∀ {u b}, ar.tables u = some b →
      br.tables u = some { b with at_heap := fun j => ar.turned t old new S u j (b.at_heap j) }) :
    br = ar.replaced t old new S := by
  have htables : br.tables = (ar.replaced t old new S).tables := by
    funext u
    cases hu : ar.tables u with
    | none => simp [Root.replaced, hu, hnone hu]
    | some b => rw [hsome hu, Root.replaced_table hu]
  rw [hbr, htables]
  rfl

theorem Root.keeps_mono (hST : S ⊆ T) {u j : ℕ} (h : ar.Keeps t S u j) : ar.Keeps t T u j := by
  obtain ⟨rfl, hj⟩ | ⟨rfl, k, hk, hrest⟩ := h
  · exact .inl ⟨rfl, hST hj⟩
  · exact .inr ⟨rfl, k, hST hk, hrest⟩

theorem Root.keeps_union {u j : ℕ} :
    ar.Keeps t (S ∪ T) u j ↔ ar.Keeps t S u j ∨ ar.Keeps t T u j := by
  constructor
  · rintro (⟨rfl, hj | hj⟩ | ⟨rfl, k, hk | hk, hrest⟩)
    · exact .inl (.inl ⟨rfl, hj⟩)
    · exact .inr (.inl ⟨rfl, hj⟩)
    · exact .inl (.inr ⟨rfl, k, hk, hrest⟩)
    · exact .inr (.inr ⟨rfl, k, hk, hrest⟩)
  · rintro (h | h)
    · exact Root.keeps_mono Set.subset_union_left h
    · exact Root.keeps_mono Set.subset_union_right h

theorem Root.keeps_replaced {u j : ℕ} :
    (ar.replaced t old new S).Keeps t T u j ↔ ar.Keeps t T u j := by
  cases ht : ar.tables t with
  | none => simp [Root.Keeps, Root.replaced, ht]
  | some b => simp [Root.Keeps, Root.replaced_table ht, ht]

theorem Root.replaced_empty : ar.replaced t old new ∅ = ar := by
  have hno : ∀ u j, ¬ ar.Keeps t ∅ u j := by simp [Root.Keeps]
  exact (Root.eq_replaced rfl id fun hu => by simp [hu, Root.turned_of_not_keeps (hno _ _)]).symm

theorem Root.replaced_replaced :
    (ar.replaced t old new S).replaced t old new T = ar.replaced t old new (S ∪ T) := by
  refine Root.eq_replaced rfl (fun hu => by simp [Root.replaced, hu]) fun {u b} hu => ?_
  rw [Root.replaced_table (Root.replaced_table hu)]
  simp only [Option.some.injEq, Table.mk.injEq, true_and]
  funext j
  by_cases hold : b.at_heap j = .node old
  · by_cases hS : ar.Keeps t S u j <;> by_cases hT : ar.Keeps t T u j <;>
      simp [Root.turned, hold, Root.keeps_replaced, Root.keeps_union, hS, hT]
  · simp [Root.turned, hold]

theorem Root.replaced_ext {s : ℕ} (h : ∀ {u b j}, ar.tables u = some b → b.at_heap j = .node old →
    (ar.Keeps t S u j ↔ ar.Keeps s T u j)) :
    ar.replaced t old new S = ar.replaced s old new T := by
  refine Root.eq_replaced rfl (fun hu => by simp [Root.replaced, hu]) fun {u b} hu => ?_
  rw [Root.replaced_table hu]
  simp only [Option.some.injEq, Table.mk.injEq, true_and]
  funext j
  by_cases hold : b.at_heap j = .node old
  · by_cases hS : ar.Keeps t S u j
    · rw [hold, Root.turned_of_keeps hS, Root.turned_of_keeps ((h hu hold).mp hS)]
    · rw [Root.turned_of_not_keeps hS, Root.turned_of_not_keeps (mt (h hu hold).mpr hS)]
  · rw [Root.turned_of_ne hold, Root.turned_of_ne hold]

theorem Root.replaced_congr (hST : S ⊆ T) (hno : ∀ k ∈ T, k ∉ S → ar.shown t k ≠ old) :
    ar.replaced t old new S = ar.replaced t old new T := by
  refine Root.replaced_ext fun {u b j} hu hj => ⟨Root.keeps_mono hST, ?_⟩
  rintro (⟨rfl, hT⟩ | ⟨rfl, k, hT, a, ha, hk⟩)
  · by_contra hS
    exact hno j hT (fun h => hS (.inl ⟨rfl, h⟩)) (Root.shown_node hu hj)
  · by_contra hS
    refine hno k hT (fun h => hS (.inr ⟨rfl, k, h, a, ha, hk⟩)) ?_
    rw [Root.shown_child ha hk hu, Table.at_default, hj]
    rfl

theorem Root.replaced_heap (ht : ar.tables t = some a) {k : ℕ} (hk : 2 ≤ k) (hS : k ∉ S) :
    ∃ b, (ar.replaced t old new S).tables t = some b ∧ b.at_heap k = a.at_heap k := by
  have hno : ¬ ar.Keeps t S t k := by
    rintro (⟨-, h⟩ | ⟨rfl, -⟩)
    · exact hS h
    · omega
  exact ⟨_, Root.replaced_table ht, Root.turned_of_not_keeps hno⟩

theorem Root.HeapOf.replaced (h : ar.HeapOf t a) (old new : Option Node) (S : Set ℕ) :
    ∃ b, (ar.replaced t old new S).HeapOf t b ∧ b.at_minfringe = a.at_minfringe := by
  refine ⟨_, ⟨Root.replaced_table h.table, h.minfringe, fun {k} hk => ?_, fun {k c} hk hc => ?_⟩,
    rfl⟩
  · obtain ⟨v, hv⟩ := h.node hk
    simp only [hv]
    exact Root.turned_node
  · obtain ⟨b, v, hb, hv⟩ := h.child hk (Root.turned_eq_child.mp hc)
    have hnode : ∃ w, ar.turned t old new S c 1 (b.at_heap 1) = .node w := by
      rw [hv]
      exact Root.turned_node
    obtain ⟨w, hw⟩ := hnode
    exact ⟨_, w, Root.replaced_table hb, hw⟩

theorem Root.keeps_singleton (ht : ar.tables t = some a) {k u j : ℕ} :
    ar.Keeps t {k} u j ↔ u = t ∧ j = k ∨ j = 1 ∧ a.at_heap k = .child u := by
  simp [Root.Keeps, ht]

theorem Root.setHeap_eq_replaced (ht : ar.tables t = some a) {k : ℕ}
    (hk : a.at_heap k = .node old ∨ a.at_heap k = .node new) :
    ar.setHeap t k (.node new) = ar.replaced t old new {k} := by
  have hleaf : ∀ c, a.at_heap k ≠ .child c := by
    intro c hc
    simp [hc] at hk
  refine Root.eq_replaced rfl (fun {u} hu => ?_) fun {u b} hu => ?_
  · have hne : u ≠ t := by rintro rfl; simp [hu] at ht
    simp [hu, hne]
  · by_cases hut : u = t
    · subst hut
      obtain rfl : a = b := Option.some.inj (ht.symm.trans hu)
      simp only [Root.setHeap_tables, if_true, ht, Option.map_some, Option.some.injEq,
        Table.mk.injEq, true_and]
      funext j
      by_cases hj : j = k
      · subst hj
        rw [Function.update_self]
        obtain hk | hk := hk
        · rw [hk, Root.turned_of_keeps ((Root.keeps_singleton ht).mpr (.inl ⟨rfl, rfl⟩))]
        · rw [hk, Root.turned]
          split_ifs <;> rfl
      · have hno : ¬ ar.Keeps u {k} u j := by
          rw [Root.keeps_singleton ht]
          simp [hj, hleaf u]
        rw [Function.update_of_ne hj, Root.turned_of_not_keeps hno]
    · have hno : ∀ j, ¬ ar.Keeps t {k} u j := by
        intro j
        rw [Root.keeps_singleton ht]
        simp [hut, hleaf u]
      simp [hut, hu, Root.turned_of_not_keeps (hno _)]

variable (old new) in
theorem Root.HeapOf.substitute_eq (h : ar.HeapOf t a) {k : ℕ} (hk : k < 2 * a.at_minfringe) :
    substitute t old new ar a k = some (ar.replaced t old new {k}) := by
  have hsame : ar.shown t k ≠ old → ar.replaced t old new {k} = ar := by
    intro hne
    rw [← Root.replaced_congr (Set.empty_subset _) (by simpa using hne), Root.replaced_empty]
  cases hka : a.at_heap k with
  | node an =>
    by_cases han : an = old
    · subst han
      simp [substitute, hka, ← Root.setHeap_eq_replaced h.table (.inl hka)]
    · rw [Root.shown_node h.table hka] at hsame
      simp [substitute, hka, han, hsame han]
  | child c =>
    obtain ⟨b, v, hb, hv⟩ := h.child hk hka
    have hdef : b.at_default = v := by rw [Table.at_default, hv]; rfl
    by_cases hvo : v = old
    · subst hvo
      have hset : ar.setHeap c 1 (.node new) = ar.replaced c v new {1} :=
        Root.setHeap_eq_replaced hb (.inl hv)
      -- the entry itself holds no route, so that only the default is replaced
      have hword : ar.replaced c v new {1} = ar.replaced t v new {k} := by
        refine Root.replaced_ext fun {u b' j} hu hj => ?_
        rw [Root.keeps_singleton hb, Root.keeps_singleton h.table, hka, hv]
        have hentry : ¬ (u = t ∧ j = k) := by
          rintro ⟨rfl, rfl⟩
          obtain rfl : a = b' := Option.some.inj (h.table.symm.trans hu)
          simp [hka] at hj
        simp only [hentry, false_or, Entry.child.injEq, reduceCtorEq, and_false, or_false]
        exact ⟨fun e => ⟨e.2, e.1.symm⟩, fun e => ⟨e.2.symm, e.1⟩⟩
      simp [substitute, hka, hb, hv, hset, hword]
    · rw [Root.shown_child h.table hka hb, hdef] at hsame
      simp [substitute, hka, hb, hv, hvo, hsame hvo]

end Replaced

/-- The indices from `k` on, over `h` levels. -/
def subtree (k h : ℕ) : Set ℕ := {j | Below k h j}

theorem subtree_zero (k : ℕ) : subtree k 0 = {k} := by
  ext j
  constructor
  · rintro ⟨d, hd, rfl⟩
    obtain rfl : d = 0 := by omega
    simp
  · rintro rfl
    exact .refl j 0

theorem subtree_succ (k h : ℕ) :
    subtree k (h + 1) = {k} ∪ subtree (2 * k) h ∪ subtree (2 * k + 1) h := by
  have hl : 2 * k / 2 = k := by omega
  have hr : (2 * k + 1) / 2 = k := by omega
  ext j
  constructor
  · intro hj
    obtain rfl | hj | hj := Below.cases hj
    · exact .inl (.inl rfl)
    · exact .inl (.inr hj)
    · exact .inr hj
  · rintro ((rfl | hj) | hj)
    · exact .refl j _
    · exact hl ▸ Below.up hj
    · exact hr ▸ Below.up hj

section Run
variable {ar : Root} {t i : ℕ} {a : Table} {old new : Option Node}

variable (old new) in
theorem Root.HeapOf.recursion (h : ar.HeapOf t a) : ∀ (d p k fuel : ℕ) (S : Set ℕ),
    p + d = a.at_bits → 2 ^ p ≤ k → k < 2 ^ (p + 1) → d < fuel →
    allotRecursion t old new fuel (ar.replaced t old new S) k =
      some (ar.replaced t old new (S ∪ subtree k d)) := by
  intro d
  induction d with
  | zero =>
    intro p k fuel S hp hlo hhi hf
    obtain ⟨b, hb, hmin⟩ := h.replaced old new S
    obtain ⟨f, rfl⟩ : ∃ f, fuel = f + 1 := ⟨fuel - 1, by omega⟩
    have hbits : a.at_minfringe = 2 ^ p := by rw [h.minfringe, ← hp, Nat.add_zero]
    have hsub := hb.substitute_eq old new (show k < 2 * b.at_minfringe by omega)
    have hfr : k ≥ b.at_minfringe := by rw [hmin, hbits]; exact hlo
    simp [allotRecursion, hb.table, hsub, hfr, Root.replaced_replaced, subtree_zero]
  | succ d ih =>
    intro p k fuel S hp hlo hhi hf
    obtain ⟨b, hb, hmin⟩ := h.replaced old new S
    obtain ⟨f, rfl⟩ : ∃ f, fuel = f + 1 := ⟨fuel - 1, by omega⟩
    have hp1 : 2 ^ (p + 1) = 2 * 2 ^ p := by rw [pow_succ]; omega
    have hp2 : 2 ^ (p + 2) = 2 * 2 ^ (p + 1) := by rw [pow_succ]; omega
    have hle : 2 ^ (p + 1) ≤ a.at_minfringe := by
      rw [h.minfringe]
      exact Nat.pow_le_pow_right (by omega) (by omega)
    have hsub := hb.substitute_eq old new (show k < 2 * b.at_minfringe by omega)
    have hin : ¬ k ≥ b.at_minfringe := by omega
    have hshift : k <<< 1 = 2 * k := by rw [Nat.shiftLeft_eq]; omega
    have hleft := ih (p + 1) (2 * k) f (S ∪ {k}) (by omega) (by omega) (by omega) (by omega)
    have hright := ih (p + 1) (2 * k + 1) f (S ∪ {k} ∪ subtree (2 * k) d) (by omega) (by omega)
      (by omega) (by omega)
    rw [allotRecursion, subtree_succ, ← Set.union_assoc, ← Set.union_assoc, ← hright]
    simp only [hb.table, hsub, hin, hshift, hleft, Root.replaced_replaced, Option.pure_def,
      Option.bind_eq_bind, Option.bind_some, if_false]

theorem Root.replaced_store {S : Set ℕ} {k : ℕ} (ht : ar.tables t = some a)
    (hk : a.at_heap k = .node old) :
    (ar.replaced t old new S).setHeap t k (.node new) = ar.replaced t old new (S ∪ {k}) := by
  have hword : ar.turned t old new S t k (a.at_heap k) = .node old ∨
      ar.turned t old new S t k (a.at_heap k) = .node new := by
    rw [hk, Root.turned]
    split_ifs <;> simp
  rw [Root.setHeap_eq_replaced (Root.replaced_table ht) hword, Root.replaced_replaced]

theorem Root.HeapOf.passes_fringe (h : ar.HeapOf t a) {k : ℕ} (hk : k < 2 * a.at_minfringe) :
    Passes t i old new 1 ar .fringe k (ar.replaced t old new {k})
      (if k % 2 = 1 then .moveup else .fringe) (if k % 2 = 1 then k else k + 1) := by
  intro f
  have hsub := h.substitute_eq old new hk
  rw [Nat.add_comm]
  cases hka : a.at_heap k with
  | node v =>
    simp only [substitute, hka] at hsub
    by_cases hv : v = old
    · rw [if_pos hv] at hsub
      rw [← Option.some.inj hsub]
      by_cases hm : k % 2 = 1 <;> simp [allotLoop, allotStep, h.table, hka, hv, hm]
    · rw [if_neg hv] at hsub
      rw [← Option.some.inj hsub]
      by_cases hm : k % 2 = 1 <;> simp [allotLoop, allotStep, h.table, hka, hv, hm]
  | child c =>
    obtain ⟨b, v, hb, hv⟩ := h.child hk hka
    simp only [substitute, hka, hb, hv, Option.pure_def, Option.bind_eq_bind, Option.bind_some,
      Entry.node.injEq] at hsub
    by_cases hvo : v = old
    · rw [if_pos hvo] at hsub
      rw [← Option.some.inj hsub]
      by_cases hm : k % 2 = 1 <;> simp [allotLoop, allotStep, h.table, hka, hb, hv, hvo, hm]
    · rw [if_neg hvo] at hsub
      rw [← Option.some.inj hsub]
      by_cases hm : k % 2 = 1 <;> simp [allotLoop, allotStep, h.table, hka, hb, hv, hvo, hm]

/-- Where the labels turn away, nothing further down shows `old`. -/
def Root.Sheltered (ar : Root) (t i : ℕ) (a : Table) (old : Option Node) : Prop :=
  ∀ c j, (∃ d, c / 2 ^ d = i) → ar.shown t c ≠ old → (∃ d, j / 2 ^ d = c) →
    j < 2 * a.at_minfringe → ar.shown t j ≠ old

theorem Root.HeapOf.subtree_lt (h : ar.HeapOf t a) {p d k j : ℕ} (hp : p + d = a.at_bits)
    (hhi : k < 2 ^ (p + 1)) (hj : j ∈ subtree k d) : j < 2 * a.at_minfringe := by
  obtain ⟨e, he, hje⟩ := hj
  have hlt : j < (k + 1) * 2 ^ e := by
    rw [← Nat.div_lt_iff_lt_mul (by positivity)]
    omega
  have hpow : (k + 1) * 2 ^ e ≤ 2 ^ (p + 1) * 2 ^ d :=
    Nat.mul_le_mul hhi (Nat.pow_le_pow_right (by omega) he)
  have hend : 2 ^ (p + 1) * 2 ^ d = 2 * 2 ^ a.at_bits := by
    rw [← hp]
    ring
  rw [h.minfringe]
  omega

/-- A child outside the fringe: control moves on from it when its subtree is done, or at
once where the child shows something else. -/
theorem Root.HeapOf.passes_child (h : ar.HeapOf t a) (hsh : ar.Sheltered t i a old)
    {m p d c : ℕ} {S : Set ℕ} (hp : p + (d + 1) = a.at_bits) (hhi : c < 2 ^ (p + 1))
    (hic : i < c) (hc2 : 2 ≤ c) (hci : ∃ e, c / 2 ^ e = i) (hfree : c ∉ S)
    (hsub : ar.shown t c = old → ∃ n ≤ m, Passes t i old new n (ar.replaced t old new S) .again c
      (ar.replaced t old new (S ∪ (subtree (2 * c) d ∪ subtree (2 * c + 1) d))) .moveup
      (2 * c + 1)) :
    ∃ n ≤ m + 2, Passes t i old new n (ar.replaced t old new S) .nonfringe c
      (ar.replaced t old new (S ∪ subtree c (d + 1))) .moveon c := by
  have hlt : c < a.at_minfringe := by
    rw [h.minfringe]
    exact hhi.trans_le (Nat.pow_le_pow_right (by omega) (by omega))
  obtain ⟨v, hv⟩ := h.node hlt
  have hshown : ar.shown t c = v := Root.shown_node h.table hv
  obtain ⟨b, hb, hbc⟩ : ∃ b, (ar.replaced t old new S).tables t = some b ∧
      b.at_heap c = a.at_heap c :=
    Root.replaced_heap h.table hc2 hfree
  by_cases hold : v = old
  · subst hold
    obtain ⟨n, hn, hpass⟩ := hsub hshown
    have hin : Passes t i v new 1 (ar.replaced t v new S) .nonfringe c
        (ar.replaced t v new S) .again c := by
      intro f
      rw [Nat.add_comm]
      simp [allotLoop, allotStep, hb, hbc, hv]
    have hout : Passes t i v new 1
        (ar.replaced t v new (S ∪ (subtree (2 * c) d ∪ subtree (2 * c + 1) d))) .moveup (2 * c + 1)
        (ar.replaced t v new (S ∪ subtree c (d + 1))) .moveon c := by
      intro f
      have hdiv : (2 * c + 1) >>> 1 = c := by rw [Nat.shiftRight_eq_div_pow]; omega
      have hset : S ∪ subtree c (d + 1) =
          S ∪ (subtree (2 * c) d ∪ subtree (2 * c + 1) d) ∪ {c} := by
        rw [subtree_succ]
        ac_rfl
      rw [Nat.add_comm, hset, ← Root.replaced_store h.table hv]
      simp [allotLoop, allotStep, hdiv, show c ≠ i by omega]
    exact ⟨1 + n + 1, by omega, (hin.trans hpass).trans hout⟩
  · have hsame : ar.replaced t old new (S ∪ subtree c (d + 1)) = ar.replaced t old new S := by
      refine (Root.replaced_congr Set.subset_union_left fun j hj hjS => ?_).symm
      have hjc : j ∈ subtree c (d + 1) := hj.resolve_left hjS
      exact hsh c j hci (by rw [hshown]; exact hold) ⟨_, hjc.choose_spec.2⟩
        (h.subtree_lt hp hhi hjc)
    refine ⟨1, by omega, fun f => ?_⟩
    rw [Nat.add_comm, hsame]
    simp [allotLoop, allotStep, hb, hbc, hv, hold]

variable (new) in
/-- From `again` at an index that shows `old` to `moveup` at its second child: the indices
below it are done. -/
theorem Root.HeapOf.passes_again (h : ar.HeapOf t a) (hsh : ar.Sheltered t i a old) :
    ∀ (d p k : ℕ) (S : Set ℕ), p + (d + 1) = a.at_bits → 2 ^ p ≤ k → k < 2 ^ (p + 1) → i ≤ k →
      (∃ e, k / 2 ^ e = i) → (∀ j ∈ subtree k (d + 1), j ∉ S) →
      ∃ n, n + 7 ≤ 5 * 2 ^ (d + 1) ∧ Passes t i old new n (ar.replaced t old new S) .again k
        (ar.replaced t old new (S ∪ (subtree (2 * k) d ∪ subtree (2 * k + 1) d))) .moveup
        (2 * k + 1) := by
  intro d
  induction d with
  | zero =>
    intro p k S hp hlo hhi hik hki hfree
    have hmin : a.at_minfringe = 2 * 2 ^ p := by rw [h.minfringe, ← hp, pow_succ]; omega
    have hp1 : 2 ^ (p + 1) = 2 * 2 ^ p := by rw [pow_succ]; omega
    obtain ⟨b, hb, hbm⟩ := h.replaced old new S
    obtain ⟨b', hb', hbm'⟩ := h.replaced old new (S ∪ {2 * k})
    have hagain : Passes t i old new 1 (ar.replaced t old new S) .again k
        (ar.replaced t old new S) .fringe (2 * k) := by
      intro f
      rw [Nat.add_comm, allotLoop_again hb.table, if_neg (by omega)]
    have hl : Passes t i old new 1 (ar.replaced t old new S) .fringe (2 * k) _ _ _ :=
      hb.passes_fringe (by omega)
    have hr : Passes t i old new 1 (ar.replaced t old new (S ∪ {2 * k})) .fringe (2 * k + 1) _ _ _ :=
      hb'.passes_fringe (by omega)
    rw [if_neg (by omega), if_neg (by omega), Root.replaced_replaced] at hl
    rw [if_pos (by omega), if_pos (by omega), Root.replaced_replaced, Set.union_assoc] at hr
    refine ⟨1 + 1 + 1, by norm_num, ?_⟩
    rw [subtree_zero, subtree_zero]
    exact (hagain.trans hl).trans hr
  | succ d ih =>
    intro p k S hp hlo hhi hik hki hfree
    have hk1 : 1 ≤ k := (Nat.one_le_two_pow).trans hlo
    have hp1 : 2 ^ (p + 1) = 2 * 2 ^ p := by rw [pow_succ]; omega
    have hp2 : 2 ^ (p + 2) = 2 * 2 ^ (p + 1) := by rw [pow_succ]; omega
    have hle : 2 ^ (p + 2) ≤ a.at_minfringe := by
      rw [h.minfringe]
      exact Nat.pow_le_pow_right (by omega) (by omega)
    obtain ⟨b, hb, hbm⟩ := h.replaced old new S
    have hchild : ∀ (c : ℕ) (T : Set ℕ), c / 2 = k → (∀ j ∈ subtree c (d + 1), j ∉ T) →
        ∃ n, n + 7 ≤ 5 * 2 ^ (d + 1) + 2 ∧
          Passes t i old new n (ar.replaced t old new T) .nonfringe c
            (ar.replaced t old new (T ∪ subtree c (d + 1))) .moveon c := by
      intro c T hck hT
      have hci : ∃ e, c / 2 ^ e = i := by
        obtain ⟨e, he⟩ := hki
        exact ⟨e + 1, by rw [pow_succ', ← Nat.div_div_eq_div_mul, hck, he]⟩
      obtain ⟨n, hn, hpass⟩ := h.passes_child (m := 5 * 2 ^ (d + 1) - 7) hsh
        (show p + 1 + (d + 1) = a.at_bits by omega) (by omega) (by omega) (by omega) hci (hT c (.refl c _)) fun _ => by
          obtain ⟨n, hn, hpass⟩ :=
            ih (p + 1) c T (by omega) (by omega) (by omega) (by omega) hci hT
          exact ⟨n, by omega, hpass⟩
      have h10 : 10 ≤ 5 * 2 ^ (d + 1) := by
        have := Nat.one_le_two_pow (n := d)
        rw [pow_succ]
        omega
      exact ⟨n, by omega, hpass⟩
    have hsucc := subtree_succ k (d + 1)
    obtain ⟨n, hn, hl⟩ := hchild (2 * k) S (by omega) fun j hj =>
      hfree j (hsucc ▸ .inl (.inr hj))
    obtain ⟨m, hm, hr⟩ := hchild (2 * k + 1) (S ∪ subtree (2 * k) (d + 1)) (by omega) fun j hj => by
      rintro (hS | hleft)
      · exact hfree j (hsucc ▸ .inr hj) hS
      · exact Below.siblings hk1 hleft hj
    have hagain : Passes t i old new 1 (ar.replaced t old new S) .again k
        (ar.replaced t old new S) .nonfringe (2 * k) := by
      intro f
      rw [Nat.add_comm, allotLoop_again hb.table, if_pos (by omega)]
    have hover : ∀ cr, Passes t i old new 1 cr .moveon (2 * k) cr .nonfringe (2 * k + 1) := by
      intro cr f
      rw [Nat.add_comm, allotLoop_moveon, if_neg (by omega), if_neg (by omega)]
    have hup : ∀ cr, Passes t i old new 1 cr .moveon (2 * k + 1) cr .moveup (2 * k + 1) := by
      intro cr f
      rw [Nat.add_comm, allotLoop_moveon, if_pos (by omega), if_pos (by omega)]
    rw [Set.union_assoc] at hr
    refine ⟨1 + n + 1 + m + 1, ?_, (((hagain.trans hl).trans (hover _)).trans hr).trans (hup _)⟩
    have h2 : 2 ^ (d + 1 + 1) = 2 * 2 ^ (d + 1) := by rw [pow_succ]; omega
    omega

theorem Root.HeapOf.art_allot_eq (h : ar.HeapOf t a) (hsh : ar.Sheltered t i a old) {p d : ℕ}
    (hp : p + (d + 1) = a.at_bits) (hlo : 2 ^ p ≤ i) (hhi : i < 2 ^ (p + 1))
    (hi : i < a.at_minfringe) (hold : a.at_heap i = .node old) :
    art_allot ar t i old new = some (ar.replaced t old new (subtree i (d + 1))) := by
  obtain ⟨n, hn, hpass⟩ := h.passes_again new hsh d p i ∅ hp hlo hhi le_rfl ⟨0, by simp⟩ (by simp)
  rw [Root.replaced_empty, Set.empty_union] at hpass
  have hfuel : n + 1 ≤ 12 * a.at_minfringe := by
    have hle : 2 ^ (d + 1) ≤ a.at_minfringe := by
      rw [h.minfringe]
      exact Nat.pow_le_pow_right (by omega) (by omega)
    omega
  have hset : subtree i (d + 1) = subtree (2 * i) d ∪ subtree (2 * i + 1) d ∪ {i} := by
    rw [subtree_succ]
    ac_rfl
  have hdiv : (2 * i + 1) >>> 1 = i := by rw [Nat.shiftRight_eq_div_pow]; omega
  have hrun : allotLoop t i old new (12 * a.at_minfringe) ar .again i =
      some (ar.replaced t old new (subtree i (d + 1))) := by
    rw [show 12 * a.at_minfringe = n + ((12 * a.at_minfringe - n - 1) + 1) by omega, hpass, hset,
      ← Root.replaced_store h.table hold]
    simp [allotLoop, allotStep, hdiv]
  simp [art_allot, h.table, guard, hi, hrun]

end Run

/-- How specific a route is; the least specific is none at all. -/
def specificity (v : Option Node) : ℕ := v.elim 0 fun n => n.an_plen + 1

/-- An index shows the route of its parent, or one that is more specific. -/
def Root.Allotted (ar : Root) (t k : ℕ) : Prop :=
  ar.shown t k = ar.shown t (k / 2) ∨
    specificity (ar.shown t (k / 2)) < specificity (ar.shown t k)

section Allotted
variable {ar : Root} {t i : ℕ} {a : Table} {old new : Option Node}

theorem Root.shown_below (hi : 1 ≤ i) (hinv : ∀ k, (∃ d, k / 2 ^ d = i) → k ≠ i →
      k < 2 * a.at_minfringe → ar.Allotted t k) {c : ℕ} (hc : ∃ e, c / 2 ^ e = i) (d : ℕ) :
    ∀ j, j / 2 ^ d = c → j < 2 * a.at_minfringe →
      ar.shown t j = ar.shown t c ∨ specificity (ar.shown t c) < specificity (ar.shown t j) := by
  induction d with
  | zero =>
    intro j hj _
    obtain rfl : j = c := by simpa using hj
    exact .inl rfl
  | succ d ih =>
    intro j hj hlt
    obtain ⟨e, he⟩ := hc
    have hup := ih (j / 2) (by rw [Nat.div_div_eq_div_mul, ← pow_succ', hj]) (by omega)
    have hji : j / 2 ^ (d + 1 + e) = i := by rw [pow_add, ← Nat.div_div_eq_div_mul, hj, he]
    have hne : j ≠ i := by
      rintro rfl
      have hlt := Nat.div_lt_self hi (Nat.one_lt_two_pow (n := d + 1 + e) (by omega))
      omega
    obtain hs | hs := hinv j ⟨_, hji⟩ hne hlt
    · rw [hs]
      exact hup
    · obtain hu | hu := hup
      · exact .inr (hu ▸ hs)
      · exact .inr (hu.trans hs)

theorem Root.sheltered (hi : 1 ≤ i) (hold : ar.shown t i = old)
    (hinv : ∀ k, (∃ d, k / 2 ^ d = i) → k ≠ i → k < 2 * a.at_minfringe → ar.Allotted t k) :
    ar.Sheltered t i a old := by
  rintro c j ⟨e, hc⟩ hne ⟨d, hj⟩ hlt hjold
  have hle : c ≤ j := hj ▸ Nat.div_le_self _ _
  have hic := Root.shown_below hi hinv ⟨0, by simp⟩ e c hc (by omega)
  have hcj := Root.shown_below hi hinv ⟨e, hc⟩ d j hj hlt
  rw [hold] at hic
  rw [hjold] at hcj
  obtain hs | hs := hcj
  · exact hne hs.symm
  · obtain hu | hu := hic
    · exact hne hu
    · omega

theorem Routed.allotted {own : Owners} (h : Routed ar own) (ht : ar.tables t = some a) {k : ℕ}
    (hk : 4 ≤ k) (hlt : k < 2 * a.at_minfringe) : ar.Allotted t k := by
  rw [Root.Allotted, h.shown ht (by omega) hlt, h.shown ht (by omega) (by omega)]
  cases hown : own t k with
  | none => exact .inl (near_of_none hown)
  | some n =>
    rw [near_of_own (by omega) hown]
    cases hup : near (own t) (k / 2) with
    | none => exact .inr (by simp [specificity])
    | some m =>
      obtain ⟨d, -, hm, -⟩ := near_eq_some hup
      obtain ⟨b, hb⟩ := h.owned hown
      obtain ⟨b', hb'⟩ := h.owned hm
      obtain rfl : a = b := Option.some.inj (ht.symm.trans hb.table)
      obtain rfl : a = b' := Option.some.inj (ht.symm.trans hb'.table)
      obtain ⟨-, hhi⟩ := h.wf.bindex_spec hb.table hb.index
      obtain ⟨hlo, -⟩ := h.wf.bindex_spec hb'.table hb'.index
      have hdiv : k / 2 / 2 ^ d ≤ k / 2 := Nat.div_le_self _ _
      have hpow : 2 ^ (m.an_plen - a.at_offset) < 2 ^ (n.an_plen - a.at_offset) := by
        rw [pow_succ] at hhi
        omega
      have hexp := (Nat.pow_lt_pow_iff_right (by omega)).mp hpow
      refine .inr ?_
      simp only [specificity, Option.elim_some]
      omega

theorem Routed.sheltered {own : Owners} (h : Routed ar own) (ht : ar.tables t = some a)
    (hi : 2 ≤ i) : ar.HeapOf t a ∧ ar.Sheltered t i a (ar.shown t i) := by
  refine ⟨h.wf.heapOf ht, Root.sheltered (by omega) rfl fun k hk hne hlt => ?_⟩
  obtain ⟨d, hd⟩ := hk
  refine h.allotted ht ?_ hlt
  cases d with
  | zero => simp at hd; omega
  | succ d =>
    have hle : k / 2 ^ (d + 1) ≤ k / 2 := by
      rw [pow_succ', ← Nat.div_div_eq_div_mul]
      exact Nat.div_le_self _ _
    omega

end Allotted

/-- The second root differs from the first at most in what the indices in `S` of table `t`
show. -/
structure Root.ChangesAt (ar br : Root) (t : ℕ) (S : Set ℕ) : Prop where
  root : br = { ar with tables := br.tables }
  gone : ∀ {u}, ar.tables u = none → br.tables u = none
  heap : ∀ {u b}, ar.tables u = some b → ∃ heap, br.tables u = some { b with at_heap := heap } ∧
    ∀ j, ¬ ar.Keeps t S u j → heap j = b.at_heap j

theorem Root.replaced_changesAt {ar : Root} {t : ℕ} (old new : Option Node) (S : Set ℕ) :
    ar.ChangesAt (ar.replaced t old new S) t S :=
  ⟨rfl, fun hu => by simp [Root.replaced, hu],
    fun hu => ⟨_, Root.replaced_table hu, fun _ hj => Root.turned_of_not_keeps hj⟩⟩

/-- `art_allot` ends and leaves what the recursion of its comment leaves. -/
theorem art_allot_recursion {ar : Root} {t i : ℕ} {a : Table} {old new : Option Node}
    (h : ar.HeapOf t a) (hi : 1 ≤ i) (hlt : i < a.at_minfringe) (hold : a.at_heap i = .node old)
    (hinv : ∀ k, (∃ d, k / 2 ^ d = i) → k ≠ i → k < 2 * a.at_minfringe → ar.Allotted t k) :
    ∃ br, art_allot ar t i old new = some br ∧
      (∀ fuel, a.at_bits < fuel → allotRecursion t old new fuel ar i = some br) ∧
      ar.ChangesAt br t {k | k < 2 * a.at_minfringe ∧ ∃ d, k / 2 ^ d = i} := by
  have hlo : 2 ^ Nat.log 2 i ≤ i := Nat.pow_log_le_self 2 (by omega)
  have hhi : i < 2 ^ (Nat.log 2 i + 1) := Nat.lt_pow_succ_log_self (by omega) i
  have hpb : Nat.log 2 i < a.at_bits := by
    rw [h.minfringe] at hlt
    exact (Nat.pow_lt_pow_iff_right (by omega)).mp (hlo.trans_lt hlt)
  obtain ⟨d, hd⟩ : ∃ d, Nat.log 2 i + (d + 1) = a.at_bits := ⟨a.at_bits - Nat.log 2 i - 1, by omega⟩
  have hsh := Root.sheltered hi (Root.shown_node h.table hold) hinv
  refine ⟨ar.replaced t old new (subtree i (d + 1)), h.art_allot_eq hsh hd hlo hhi hlt hold,
    fun fuel hf => ?_, ?_⟩
  · have hrec := h.recursion old new (d + 1) (Nat.log 2 i) i fuel ∅ hd hlo hhi (by omega)
    rwa [Root.replaced_empty, Set.empty_union] at hrec
  · have hch := ar.replaced_changesAt (t := t) old new (subtree i (d + 1))
    refine ⟨hch.root, hch.gone, fun hu => ?_⟩
    obtain ⟨heap, hheap, hsame⟩ := hch.heap hu
    refine ⟨heap, hheap, fun j hj => hsame j fun hk => hj (Root.keeps_mono (fun k hk => ?_) hk)⟩
    exact ⟨h.subtree_lt hd hhi hk, _, hk.choose_spec.2⟩

/-- In every state that attaching, insertions and deletions lead to, routes become more specific
on the way down a table, and the labels of `art_allot` do there what the recursion does. -/
theorem Reachable.allot_recursion {s : State} (h : Reachable s) {t : ℕ} {a : Table}
    (ht : s.ar.tables t = some a) :
    (∀ k, 4 ≤ k → k < 2 * a.at_minfringe → s.ar.Allotted t k) ∧
      ∀ i old new, 2 ≤ i → i < a.at_minfringe → a.at_heap i = .node old →
        ∃ br, art_allot s.ar t i old new = some br ∧
          ∀ fuel, a.at_bits < fuel → allotRecursion t old new fuel s.ar i = some br := by
  obtain ⟨own, hr, -⟩ := h.holds
  refine ⟨fun k hk hlt => hr.allotted ht hk hlt, fun i old new hi hlt hold => ?_⟩
  obtain ⟨hheap, hsh⟩ := hr.sheltered ht hi
  rw [Root.shown_node ht hold] at hsh
  have hlo : 2 ^ Nat.log 2 i ≤ i := Nat.pow_log_le_self 2 (by omega)
  have hhi : i < 2 ^ (Nat.log 2 i + 1) := Nat.lt_pow_succ_log_self (by omega) i
  have hpb : Nat.log 2 i < a.at_bits := by
    rw [hheap.minfringe] at hlt
    exact (Nat.pow_lt_pow_iff_right (by omega)).mp (hlo.trans_lt hlt)
  obtain ⟨d, hd⟩ : ∃ d, Nat.log 2 i + (d + 1) = a.at_bits := ⟨a.at_bits - Nat.log 2 i - 1, by omega⟩
  refine ⟨_, hheap.art_allot_eq hsh hd hlo hhi hlt hold, fun fuel hf => ?_⟩
  have hrec := hheap.recursion old new (d + 1) (Nat.log 2 i) i fuel ∅ hd hlo hhi (by omega)
  rwa [Root.replaced_empty, Set.empty_union] at hrec

theorem Reachable.allot_recursion_three :
    ∃ (s : State) (a : Table), s.inserted = {tenNet, tenWide, anyNet} ∧ s.ar.tables s.ar.ar_root = some a ∧
      ∀ k, 4 ≤ k → k < 2 * a.at_minfringe → s.ar.Allotted s.ar.ar_root k := by
  obtain ⟨s, hs, hins⟩ := reachable_three
  obtain ⟨a, ha, -⟩ := hs.holds.wf.root
  exact ⟨s, a, hins, ha, (hs.allot_recursion ha).1⟩

/-! A table of 256 entries below 10.0/16, with routes only. -/

def thirdByte (f : ℕ → Option Node) : Table :=
  { at_parent := none
    at_index := 2 ^ 32 - 1
    at_minfringe := 256
    at_level := 1
    at_bits := 8
    at_offset := 16
    at_refcnt := 1
    at_heap := fun k => .node (f k) }

def thirdByteRoot (f : ℕ → Option Node) : Root :=
  { ar_root := 0
    ar_bits := [16, 8, 8]
    ar_nlvl := 3
    ar_alen := 32
    ar_off := 4
    tables := fun u => if u = 0 then some (thirdByte f) else none
    fresh := 1 }

theorem thirdByteRoot_heapOf (f : ℕ → Option Node) :
    (thirdByteRoot f).HeapOf 0 (thirdByte f) :=
  ⟨rfl, rfl, fun _ => ⟨_, rfl⟩, fun _ hk => by simp [thirdByte] at hk⟩

theorem thirdByteRoot_shown (f : ℕ → Option Node) (k : ℕ) : (thirdByteRoot f).shown 0 k = f k :=
  Root.shown_node rfl rfl

def tenWide22 : Node := ⟨1, [10, 0, 0, 0], 22⟩

/-- Half of what `tenWide22` covers. -/
def tenHalf23 : Node := ⟨2, [10, 0, 2, 0], 23⟩

/-- Another node of the prefix of `tenWide22`. -/
def tenTwin22 : Node := ⟨3, [10, 0, 0, 0], 22⟩

def halved (k : ℕ) : Option Node :=
  if k = 129 ∨ k = 258 ∨ k = 259 then some tenHalf23
  else if k = 64 ∨ k = 128 ∨ k = 256 ∨ k = 257 then some tenWide22
  else none

/-- The twin in the places between two of `tenWide22`. -/
def twinned (k : ℕ) : Option Node :=
  if k = 128 ∨ k = 129 ∨ k = 257 ∨ k = 258 ∨ k = 259 then some tenTwin22
  else if k = 64 ∨ k = 256 then some tenWide22
  else none

theorem art_allot_recursion_halved :
    ∃ br, art_allot (thirdByteRoot halved) 0 64 (some tenWide22) none = some br ∧
      (∀ fuel, 8 < fuel →
        allotRecursion 0 (some tenWide22) none fuel (thirdByteRoot halved) 64 = some br) ∧
      (thirdByteRoot halved).ChangesAt br 0 {k | k < 2 * 256 ∧ ∃ d, k / 2 ^ d = 64} := by
  refine art_allot_recursion (thirdByteRoot_heapOf halved) (by decide) (by decide) rfl
    fun k hk hne hlt => ?_
  rw [Root.Allotted, thirdByteRoot_shown, thirdByteRoot_shown]
  have hlt512 : k < 512 := hlt
  simp only [halved]
  split_ifs <;> first | omega | simp [specificity, tenWide22, tenHalf23]

/-- Going down to routes that are no less specific is not enough for it: between two
indices of one node may be one of another node of the same prefix. -/
theorem allot_twinned : ¬ ∀ (ar : Root) (t i : ℕ) (a : Table) (old new : Option Node),
    ar.HeapOf t a → 1 ≤ i → i < a.at_minfringe → a.at_heap i = .node old →
    (∀ k, 2 ≤ k → k < 2 * a.at_minfringe →
      specificity (ar.shown t (k / 2)) ≤ specificity (ar.shown t k)) →
    ∃ br, art_allot ar t i old new = some br ∧
      ∀ fuel, a.at_bits < fuel → allotRecursion t old new fuel ar i = some br := by
  intro hclaim
  obtain ⟨br, hloop, hrec⟩ := hclaim (thirdByteRoot twinned) 0 64 (thirdByte twinned)
    (some tenWide22) none (thirdByteRoot_heapOf twinned) (by decide) (by decide) rfl
    fun k _ hlt => by
      have hlt512 : k < 512 := hlt
      rw [thirdByteRoot_shown, thirdByteRoot_shown]
      simp only [twinned]
      split_ifs <;> first | omega | simp [specificity, tenWide22, tenTwin22]
  have hrec := hrec 9 (by decide)
  have hkept : (art_allot (thirdByteRoot twinned) 0 64 (some tenWide22) none).map
      (fun br => (br.tables 0).map fun b => b.at_heap 256) =
        some (some (.node (some tenWide22))) := by decide +kernel
  have hgone : (allotRecursion 0 (some tenWide22) none 9 (thirdByteRoot twinned) 64).map
      (fun br => (br.tables 0).map fun b => b.at_heap 256) = some (some (.node none)) := by
    decide +kernel
  rw [hloop] at hkept
  rw [hrec, hkept] at hgone
  simp at hgone

end OpenbsdKernel.Art
