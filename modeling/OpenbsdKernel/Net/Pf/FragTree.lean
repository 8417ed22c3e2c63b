import OpenbsdKernel.Sys.Tree.RbRuns

/-!
# The tree of pending datagrams

`pf_frag_compare` of `net/pf_norm.c` compares the identifiers first, by a 32-bit difference that
is taken for a signed number. Below, what that means for the order of the keys and for the
datagrams that `pf_find_fragment` finds in `pf_frag_tree`.
-/
namespace OpenbsdKernel.PfFrag

open BinTree RbTree

def AF_INET : UInt8 := 2
def AF_INET6 : UInt8 := 24

/-- `struct pf_addr` -/
structure Addr where
  addr32 : Fin 4 → UInt32
  deriving DecidableEq

/-- The fields of `struct pf_fragment_cmp` that are compared. -/
structure FragKey where
  fr_src : Addr
  fr_dst : Addr
  fr_id : UInt32
  fr_af : UInt8
  fr_proto : UInt8
  deriving DecidableEq

def compareWord (a b : UInt32) : ℤ := if a > b then 1 else if a < b then -1 else 0

def pf_addr_compare (a b : Addr) (af : UInt8) : ℤ :=
  if af = AF_INET then compareWord (a.addr32 0) (b.addr32 0)
  else if af = AF_INET6 then
    andThen (compareWord (a.addr32 3) (b.addr32 3)) <|
    andThen (compareWord (a.addr32 2) (b.addr32 2)) <|
    andThen (compareWord (a.addr32 1) (b.addr32 1)) <|
    compareWord (a.addr32 0) (b.addr32 0)
  else 0

/-- The difference of two identifiers as an `int`. -/
def idDiff (a b : UInt32) : ℤ := (a - b).toBitVec.toInt

def pf_frag_compare (a b : FragKey) : ℤ :=
  andThen (idDiff a.fr_id b.fr_id) <|
  andThen ((a.fr_proto.toNat : ℤ) - b.fr_proto.toNat) <|
  andThen ((a.fr_af.toNat : ℤ) - b.fr_af.toNat) <|
  andThen (pf_addr_compare a.fr_src b.fr_src a.fr_af) <|
  pf_addr_compare a.fr_dst b.fr_dst a.fr_af

def SameAddr (af : UInt8) (a b : Addr) : Prop :=
  if af = AF_INET then a.addr32 0 = b.addr32 0 else af = AF_INET6 → a = b

structure SameKey (a b : FragKey) : Prop where
  id : a.fr_id = b.fr_id
  proto : a.fr_proto = b.fr_proto
  af : a.fr_af = b.fr_af
  src : SameAddr a.fr_af a.fr_src b.fr_src
  dst : SameAddr a.fr_af a.fr_dst b.fr_dst

/-- The comparison is a strict total order on a set of keys. -/
structure Orders (K : Set FragKey) : Prop where
  same : ∀ a ∈ K, ∀ b ∈ K, pf_frag_compare a b = 0 ↔ SameKey a b
  antisymm : ∀ a ∈ K, ∀ b ∈ K, pf_frag_compare a b < 0 ↔ 0 < pf_frag_compare b a
  trans : ∀ a ∈ K, ∀ b ∈ K, ∀ c ∈ K, pf_frag_compare a b < 0 → pf_frag_compare b c < 0 →
    pf_frag_compare a c < 0

/-- The identifiers lie in one half of the circle of all identifiers. -/
def HalfCircle (K : Set FragKey) : Prop := ∃ x : UInt32, ∀ k ∈ K, (k.fr_id - x).toNat < 2 ^ 31

theorem compareWord_comparator : Comparator compareWord where
  swap a b := by
    simp only [compareWord, gt_iff_lt, UInt32.lt_iff_toNat_lt]
    split_ifs <;> omega
  trans a b c := by
    simp only [compareWord, gt_iff_lt, UInt32.lt_iff_toNat_lt]
    split_ifs <;> omega

theorem compareWord_eq_zero {a b : UInt32} : compareWord a b = 0 ↔ a = b := by
  simp only [compareWord, gt_iff_lt, UInt32.lt_iff_toNat_lt, ← UInt32.toNat_inj]
  split_ifs <;> simp <;> omega

theorem pf_addr_compare_comparator (af : UInt8) : Comparator fun a b => pf_addr_compare a b af := by
  have hword (i : Fin 4) : Comparator fun a b : Addr => compareWord (a.addr32 i) (b.addr32 i) :=
    compareWord_comparator.comap fun a : Addr => a.addr32 i
  have hthen {f g : Addr → Addr → ℤ} (hf : Comparator f) (hg : Comparator g) :
      Comparator fun a b => BinTree.andThen (f a b) (g a b) :=
    hf.andThen (fun a b _ => hg.swap a b) fun a b c _ _ => hg.trans a b c
  unfold pf_addr_compare
  split_ifs
  · exact hword 0
  · exact hthen (hword 3) (hthen (hword 2) (hthen (hword 1) (hword 0)))
  · exact ⟨by simp, by simp⟩

theorem pf_addr_compare_eq_zero {a b : Addr} {af : UInt8} :
    pf_addr_compare a b af = 0 ↔ SameAddr af a b := by
  unfold pf_addr_compare SameAddr
  split_ifs with h h'
  · exact compareWord_eq_zero
  · obtain ⟨a⟩ := a
    obtain ⟨b⟩ := b
    simp only [andThen_eq_zero, compareWord_eq_zero, h', true_imp_iff, Addr.mk.injEq, funext_iff,
      Fin.forall_fin_succ]
    simp
    tauto
  · simp [h']

theorem idDiff_eq (a b : UInt32) : idDiff a b =
    if (a - b).toNat < 2 ^ 31 then ((a - b).toNat : ℤ) else (a - b).toNat - 2 ^ 32 := by
  rw [idDiff, BitVec.toInt_eq_toNat_cond, UInt32.toNat_toBitVec]
  split_ifs <;> omega

theorem idDiff_eq_zero {a b : UInt32} : idDiff a b = 0 ↔ a = b := by
  have ha := a.toNat_lt
  have hb := b.toNat_lt
  rw [idDiff_eq, UInt32.toNat_sub, ← UInt32.toNat_inj]
  split_ifs <;> omega

theorem idDiff_of_half {a b x : UInt32} (ha : (a - x).toNat < 2 ^ 31) (hb : (b - x).toNat < 2 ^ 31) :
    idDiff a b = ((a - x).toNat : ℤ) - (b - x).toNat := by
  have := a.toNat_lt
  have := b.toNat_lt
  have := x.toNat_lt
  rw [UInt32.toNat_sub] at ha hb
  rw [idDiff_eq, UInt32.toNat_sub, UInt32.toNat_sub, UInt32.toNat_sub]
  split_ifs <;> omega

theorem pf_frag_compare_eq_zero {a b : FragKey} : pf_frag_compare a b = 0 ↔ SameKey a b := by
  unfold pf_frag_compare
  simp only [andThen_eq_zero, idDiff_eq_zero, pf_addr_compare_eq_zero, sub_eq_zero, Nat.cast_inj,
    UInt8.toNat_inj]
  exact ⟨fun ⟨h1, h2, h3, h4, h5⟩ => ⟨h1, h2, h3, h4, h5⟩, fun ⟨h1, h2, h3, h4, h5⟩ => ⟨h1, h2, h3, h4, h5⟩⟩

theorem pf_frag_compare_of_ne {a b : FragKey} (h : a.fr_id ≠ b.fr_id) :
    pf_frag_compare a b = idDiff a.fr_id b.fr_id :=
  andThen_of_ne (mt idDiff_eq_zero.1 h) _

theorem pf_frag_compare_neg {a b : FragKey} (h : idDiff a.fr_id b.fr_id < 0) : pf_frag_compare a b < 0 := by
  rw [pf_frag_compare, andThen_of_ne h.ne]
  exact h

theorem pf_frag_compare_pos {a b : FragKey} (h : 0 < idDiff a.fr_id b.fr_id) : 0 < pf_frag_compare a b := by
  rw [pf_frag_compare, andThen_of_ne h.ne']
  exact h

/-- Where `m` comes after `k` but stands before it in the circle cut open opposite of `z`, `z` is
between them. -/
theorem circle_cut {m k z : UInt32} (hmk : 0 < idDiff m k)
    (hle : (m - z + 2147483648).toNat ≤ (k - z + 2147483648).toNat) :
    idDiff m z < 0 ∧ 0 ≤ idDiff k z := by
  have := m.toNat_lt
  have := k.toNat_lt
  have := z.toNat_lt
  rw [UInt32.toNat_add, UInt32.toNat_add, UInt32.toNat_sub, UInt32.toNat_sub] at hle
  rw [idDiff_eq, UInt32.toNat_sub] at hmk
  rw [idDiff_eq, idDiff_eq, UInt32.toNat_sub, UInt32.toNat_sub]
  rw [show (2147483648 : UInt32).toNat = 2147483648 from rfl] at hle
  split_ifs at hmk ⊢ <;> omega

/-- The comparison with identifiers as they follow each other from `x` on. -/
def compareFrom (x : UInt32) (a b : FragKey) : ℤ :=
  andThen (((a.fr_id - x).toNat : ℤ) - (b.fr_id - x).toNat) <|
  andThen ((a.fr_proto.toNat : ℤ) - b.fr_proto.toNat) <|
  andThen ((a.fr_af.toNat : ℤ) - b.fr_af.toNat) <|
  andThen (pf_addr_compare a.fr_src b.fr_src a.fr_af) <|
  pf_addr_compare a.fr_dst b.fr_dst a.fr_af

theorem compareFrom_comparator (x : UInt32) : Comparator (compareFrom x) := by
  have hsub (f : FragKey → ℕ) : Comparator fun a b => (f a : ℤ) - f b :=
    Comparator.sub.comap fun a => (f a : ℤ)
  have hthen {f g : FragKey → FragKey → ℤ} (hf : Comparator f) (hg : Comparator g) :
      Comparator fun a b => BinTree.andThen (f a b) (g a b) :=
    hf.andThen (fun a b _ => hg.swap a b) fun a b c _ _ => hg.trans a b c
  have hnum := hthen (hthen (hsub fun a => (a.fr_id - x).toNat) (hsub fun a => a.fr_proto.toNat))
    (hsub fun a => a.fr_af.toNat)
  -- keys that are equal so far have the same family
  have haddr {f : FragKey → FragKey → ℤ} (addr : FragKey → Addr) (hf : Comparator f)
      (haf : ∀ a b, f a b = 0 → a.fr_af = b.fr_af) :
      Comparator fun a b => BinTree.andThen (f a b) (pf_addr_compare (addr a) (addr b) a.fr_af) := by
    refine hf.andThen (fun a b h => ?_) fun a b c h h' => ?_
    · rw [← haf a b h]
      exact (pf_addr_compare_comparator a.fr_af).swap _ _
    · rw [← haf a b h]
      exact (pf_addr_compare_comparator a.fr_af).trans _ _ _
  have hsrc := haddr FragKey.fr_src hnum fun a b h => by
    have h := (andThen_eq_zero.1 h).2
    rwa [sub_eq_zero, Nat.cast_inj, UInt8.toNat_inj] at h
  have hdst := haddr FragKey.fr_dst hsrc fun a b h => by
    have h := (andThen_eq_zero.1 (andThen_eq_zero.1 h).1).2
    rwa [sub_eq_zero, Nat.cast_inj, UInt8.toNat_inj] at h
  simp only [andThen_assoc] at hdst
  exact hdst

theorem pf_frag_compare_of_half {a b : FragKey} {x : UInt32} (ha : (a.fr_id - x).toNat < 2 ^ 31)
    (hb : (b.fr_id - x).toNat < 2 ^ 31) : pf_frag_compare a b = compareFrom x a b := by
  rw [pf_frag_compare, compareFrom, idDiff_of_half ha hb]

theorem HalfCircle.orders {K : Set FragKey} (h : HalfCircle K) : Orders K := by
  obtain ⟨x, hx⟩ := h
  have hc := compareFrom_comparator x
  constructor
  · exact fun a _ b _ => pf_frag_compare_eq_zero
  · intro a ha b hb
    rw [pf_frag_compare_of_half (hx a ha) (hx b hb), pf_frag_compare_of_half (hx b hb) (hx a ha)]
    exact hc.swap a b
  · intro a ha b hb c hc'
    rw [pf_frag_compare_of_half (hx a ha) (hx b hb), pf_frag_compare_of_half (hx b hb) (hx c hc'),
      pf_frag_compare_of_half (hx a ha) (hx c hc')]
    exact fun h h' => hc.lt_of_lt_of_le h h'.le

theorem Orders.halfCircle {K : Set FragKey} (h : Orders K) : HalfCircle K := by
  obtain rfl | ⟨k₀, hk₀⟩ := K.eq_empty_or_nonempty
  · exact ⟨0, fun k hk => absurd hk (Set.notMem_empty k)⟩
  -- the first key in the circle cut open opposite of `k₀`
  let place (k : FragKey) : ℕ := (k.fr_id - k₀.fr_id + 2147483648).toNat
  obtain ⟨m, hm, hleast⟩ : ∃ m ∈ K, ∀ k ∈ K, place m ≤ place k := by
    obtain ⟨_, ⟨m, hm, rfl⟩, hleast⟩ := WellFounded.has_min wellFounded_lt (place '' K) ⟨_, k₀, hk₀, rfl⟩
    exact ⟨m, hm, fun k hk => not_lt.1 (hleast _ ⟨k, hk, rfl⟩)⟩
  refine ⟨m.fr_id, fun k hk => ?_⟩
  by_contra hfar
  have hkm : idDiff k.fr_id m.fr_id < 0 := by
    have := (k.fr_id - m.fr_id).toNat_lt
    rw [idDiff_eq, if_neg hfar]
    omega
  have hafter := (h.antisymm k hk m hm).1 (pf_frag_compare_neg hkm)
  have hmk : 0 < idDiff m.fr_id k.fr_id := by
    rw [← pf_frag_compare_of_ne]
    · exact hafter
    · intro heq
      rw [idDiff_eq_zero.2 heq.symm] at hkm
      exact hkm.false
  obtain ⟨hm₀, h₀k⟩ := circle_cut hmk (hleast k hk)
  obtain heq | hlt := h₀k.eq_or_lt
  · rw [← idDiff_eq_zero.1 heq.symm] at hm₀
    exact hm₀.not_gt hmk
  · have hk₀k := (h.antisymm k₀ hk₀ k hk).2 (pf_frag_compare_pos hlt)
    have hlt := h.trans m hm k₀ hk₀ k hk (pf_frag_compare_neg hm₀) hk₀k
    exact hlt.not_gt hafter

/-- The keys that the fragments hold, by address, with `pf_frag_tree` and `pf_fragqueue`. -/
structure State where
  fr : ℕ → FragKey
  pf_frag_tree : Head ℕ
  pf_fragqueue : List ℕ

def State.rounds (s : State) : ℕ := s.pf_fragqueue.length + 1

/-- `none` is the use of a `NULL` pointer in the functions of the tree, in this and the following. -/
def pf_find_fragment (s : State) (key : FragKey) : Option (State × Option ℕ) :=
  (walkFromRoot (fun b => pf_frag_compare key (s.fr b)) s.rounds s.pf_frag_tree).map fun w =>
    match w.tmp with
    | none => (s, none)
    | some frag => ({ s with pf_fragqueue := frag :: s.pf_fragqueue.erase frag }, some frag)

def pf_free_fragment (s : State) (frag : ℕ) : Option State :=
  (rbRemove s.rounds s.pf_frag_tree frag).map fun (tree, _) =>
    { s with pf_frag_tree := tree, pf_fragqueue := s.pf_fragqueue.erase frag }

/-- `pf_flush_fragments`, where `goal` fragments have to go. -/
def pf_flush_fragments : ℕ → State → Option State
  | 0, s => some s
  | goal + 1, s =>
    match s.pf_fragqueue.getLast? with
    | none => some s
    | some frag => (pf_free_fragment s frag).bind (pf_flush_fragments goal)

/-- A new fragment at the address `frag`. -/
def insertFragment (s : State) (key : FragKey) (frag : ℕ) : Option State :=
  let fr := Function.update s.fr frag key
  (rbInsert (fun a b => pf_frag_compare (fr a) (fr b)) s.rounds s.pf_frag_tree frag).map fun (tree, _) =>
    { fr := fr, pf_frag_tree := tree, pf_fragqueue := frag :: s.pf_fragqueue }

/-- What `pf_fillup_fragment` does to the pending datagrams: where the one with the key is not
found and the pool is at its limit, `goal` of them are flushed; `frag` is what the pool gives. -/
def pf_fillup_fragment (s : State) (key : FragKey) (goal : ℕ) (frag : Option ℕ) : Option State :=
  (pf_find_fragment s key).bind fun (s, found) =>
    match found with
    | some _ => some s
    | none => (pf_flush_fragments goal s).bind fun s =>
      match frag with
      | none => some s
      | some frag => insertFragment s key frag

inductive Op
  | fillup (key : FragKey) (goal : ℕ) (frag : Option ℕ)
  | free (frag : ℕ)

def Op.exec (s : State) : Op → Option State
  | .fillup key goal frag => pf_fillup_fragment s key goal frag
  | .free frag => pf_free_fragment s frag

/-- The pool gives memory that no pending datagram has, and only pending ones are freed. -/
def Op.Allowed (K : Set FragKey) (s : State) : Op → Prop
  | .fillup key goal frag =>
    key ∈ K ∧ ∀ a ∈ frag, a ∉ s.pf_fragqueue.take (s.pf_fragqueue.length - goal)
  | .free frag => frag ∈ s.pf_fragqueue

/-- The states that come about with keys of `K` only, whatever the memory holds at first. -/
inductive Reached (K : Set FragKey) : State → Prop
  | init (fr rbe rbe_parent rbe_color) : Reached K ⟨fr, rbInit rbe rbe_parent rbe_color, []⟩
  | step {s s' : State} (op : Op) : Reached K s → op.Allowed K s → op.exec s = some s' → Reached K s'

/-- What the order is for: nothing goes wrong in the tree, and each stored key is found. -/
def FindsStored (s : State) : Prop := ∀ a ∈ s.pf_fragqueue,
  pf_find_fragment s (s.fr a) = some ({ s with pf_fragqueue := a :: s.pf_fragqueue.erase a }, some a)

/-- What the order is for: nothing goes wrong in the tree, and each stored key is found. -/
def Finds (K : Set FragKey) : Prop := ∀ s, Reached K s →
  (∀ op : Op, op.Allowed K s → (op.exec s).isSome) ∧ FindsStored s

section Runs

variable {K : Set FragKey} {x : UInt32} {s s' : State} {key : FragKey} {t : RbTree.Tree ℕ}

def compareAt (x : UInt32) (fr : ℕ → FragKey) (a b : ℕ) : ℤ := compareFrom x (fr a) (fr b)

theorem compareAt_comparator (x : UInt32) (fr : ℕ → FragKey) : Comparator (compareAt x fr) :=
  (compareFrom_comparator x).comap fr

/-- The tree is a search tree of the pending datagrams. -/
structure Stored (K : Set FragKey) (x : UInt32) (s : State) (t : RbTree.Tree ℕ) : Prop where
  isTree : IsTree (compareAt x s.fr) s.pf_frag_tree t
  perm : (keys t).Perm s.pf_fragqueue
  mem : ∀ a ∈ keys t, s.fr a ∈ K

def Inv (K : Set FragKey) (x : UInt32) (s : State) : Prop := ∃ t, Stored K x s t

theorem Stored.nodup (h : Stored K x s t) : s.pf_fragqueue.Nodup := h.perm.nodup_iff.1 h.isTree.nodup

theorem Stored.length_lt (h : Stored K x s t) : (keys t).length < s.rounds := by
  rw [h.perm.length_eq]
  exact Nat.lt_succ_self _

theorem Stored.steady (h : Stored K x s t) (key : FragKey) :
    Steady (fun b => compareFrom x key (s.fr b)) (keys t) := by
  have hsorted : Sorted (compareFrom x) ((keys t).map s.fr) := List.pairwise_map.2 h.isTree.sorted
  exact List.pairwise_map.1 ((compareFrom_comparator x).steady hsorted key)

theorem Stored.find (h : Stored K x s t) (hx : ∀ k ∈ K, (k.fr_id - x).toNat < 2 ^ 31) (hkey : key ∈ K) :
    (∃ a ∈ s.pf_fragqueue, compareFrom x key (s.fr a) = 0 ∧
      pf_find_fragment s key = some ({ s with pf_fragqueue := a :: s.pf_fragqueue.erase a }, some a)) ∨
    (∀ a ∈ s.pf_fragqueue, compareFrom x key (s.fr a) ≠ 0) ∧ pf_find_fragment s key = some (s, none) := by
  have hcongr := walkFromRoot_congr s.rounds h.isTree.toAt
    fun a ha => pf_frag_compare_of_half (hx key hkey) (hx _ (h.mem a ha))
  obtain ⟨w, hrun, ⟨a, ha, htmp, hz⟩ | ⟨ctx, rfl, hw⟩⟩ :=
    walkFromRoot_spec s.rounds h.isTree.toAt (h.steady key) h.length_lt
  · refine .inl ⟨a, h.perm.mem_iff.1 ha, hz, ?_⟩
    simp [pf_find_fragment, hcongr, hrun, htmp]
  · refine .inr ⟨fun a ha => hw.ne a (h.perm.mem_iff.2 ha), ?_⟩
    have htmp : w.tmp = none := hw.tmp
    simp [pf_find_fragment, hcongr, hrun, htmp]

theorem Stored.free {frag : ℕ} (h : Stored K x s t) (hfrag : frag ∈ s.pf_fragqueue) :
    ∃ s', pf_free_fragment s frag = some s' ∧ s'.fr = s.fr ∧
      s'.pf_fragqueue = s.pf_fragqueue.erase frag ∧ Inv K x s' := by
  have hmem := h.perm.mem_iff.2 hfrag
  obtain ⟨tree, t', hrun, hr⟩ := rbRemove_spec h.isTree.toAt h.isTree.redBlack hmem h.length_lt.le
  obtain ⟨l, r, hkeys, hkeys'⟩ := hr.split
  have hsub : (keys t').Sublist (keys t) := by
    rw [hkeys, hkeys']
    exact (List.sublist_cons_self frag r).append_left l
  have hperm : (keys t).Perm (frag :: keys t') := by
    rw [hkeys, hkeys']
    exact List.perm_middle
  have hfree : pf_free_fragment s frag =
      some { s with pf_frag_tree := tree, pf_fragqueue := s.pf_fragqueue.erase frag } := by
    simp [pf_free_fragment, hrun]
  refine ⟨_, hfree, rfl, rfl, t', ?_, ?_, ?_⟩
  · exact ⟨hr.toAt, h.isTree.sorted.sublist hsub, hr.redBlack⟩
  · exact (List.cons_perm_iff_perm_erase.1 (hperm.symm.trans h.perm)).2
  · exact fun a ha => h.mem a (hsub.subset ha)

theorem Inv.flush (h : Inv K x s) (goal : ℕ) : ∃ s', pf_flush_fragments goal s = some s' ∧ s'.fr = s.fr ∧
    s'.pf_fragqueue = s.pf_fragqueue.take (s.pf_fragqueue.length - goal) ∧ Inv K x s' := by
  induction goal generalizing s with
  | zero => exact ⟨s, rfl, rfl, by simp, h⟩
  | succ goal ih =>
    cases hlast : s.pf_fragqueue.getLast? with
    | none =>
      rw [List.getLast?_eq_none_iff] at hlast
      exact ⟨s, by simp [pf_flush_fragments, hlast], rfl, by simp [hlast], h⟩
    | some frag =>
      obtain ⟨t, ht⟩ := h
      obtain ⟨s₁, hfree, hfr, hq, hinv⟩ := ht.free (List.mem_of_getLast? hlast)
      obtain ⟨s', hflush, hfr', hq', hinv'⟩ := ih hinv
      refine ⟨s', by simp [pf_flush_fragments, hlast, hfree, hflush], hfr'.trans hfr, ?_, hinv'⟩
      have hnodup := ht.nodup
      obtain ⟨q, hsplit⟩ := List.getLast?_eq_some_iff.1 hlast
      rw [hsplit, List.nodup_append] at hnodup
      have hnot : frag ∉ q := fun hq => hnodup.2.2 frag hq frag (by simp) rfl
      rw [hq', hq, hsplit, List.erase_append_right _ hnot]
      simp [List.take_append]

theorem Stored.insert {frag : ℕ} (h : Stored K x s t) (hx : ∀ k ∈ K, (k.fr_id - x).toNat < 2 ^ 31)
    (hkey : key ∈ K) (hfrag : frag ∉ s.pf_fragqueue)
    (hnew : ∀ a ∈ s.pf_fragqueue, compareFrom x key (s.fr a) ≠ 0) :
    ∃ s', insertFragment s key frag = some s' ∧ Inv K x s' := by
  set fr := Function.update s.fr frag key with hfr
  have hself : fr frag = key := Function.update_self ..
  have hsame : ∀ a ∈ keys t, fr a = s.fr a := by
    intro a ha
    refine Function.update_of_ne ?_ ..
    rintro rfl
    exact hfrag (h.perm.mem_iff.1 ha)
  have ht : IsTree (compareAt x fr) s.pf_frag_tree t := by
    refine ⟨h.isTree.toAt, h.isTree.sorted.imp_of_mem fun {a b} ha hb hlt => ?_, h.isTree.redBlack⟩
    rwa [compareAt, hsame a ha, hsame b hb]
  have hcompare : ∀ a ∈ keys t, pf_frag_compare (fr frag) (fr a) = compareAt x fr frag a := by
    intro a ha
    rw [compareAt, hself, hsame a ha]
    exact pf_frag_compare_of_half (hx key hkey) (hx _ (h.mem a ha))
  have hcongr := walkFromRoot_congr s.rounds ht.toAt hcompare
  have hinsert : rbInsert (fun a b => pf_frag_compare (fr a) (fr b)) s.rounds s.pf_frag_tree frag =
      rbInsert (compareAt x fr) s.rounds s.pf_frag_tree frag := by
    rw [rbInsert, rbInsert, hcongr]
  obtain ⟨y, hy, hz, -⟩ | ⟨tree, t', l, r, hrun, ht', -, hkeys, hkeys'⟩ :=
    rbInsert_spec (compareAt_comparator x fr) ht h.length_lt frag
  · rw [compareAt, hself, hsame y hy] at hz
    exact absurd hz (hnew y (h.perm.mem_iff.1 hy))
  · have hperm : (keys t').Perm (frag :: keys t) := by
      rw [hkeys, hkeys']
      exact List.perm_middle
    refine ⟨⟨fr, tree, frag :: s.pf_fragqueue⟩, ?_, t', ht', hperm.trans (h.perm.cons frag), ?_⟩
    · rw [insertFragment, ← hfr, hinsert, hrun]
      rfl
    · intro a ha
      show fr a ∈ K
      obtain rfl | ha := List.mem_cons.1 (hperm.mem_iff.1 ha)
      · rwa [hself]
      · rw [hsame a ha]
        exact h.mem a ha

theorem Inv.fillup (h : Inv K x s) (hx : ∀ k ∈ K, (k.fr_id - x).toNat < 2 ^ 31) {goal : ℕ} {frag : Option ℕ}
    (hop : (Op.fillup key goal frag).Allowed K s) :
    ∃ s', pf_fillup_fragment s key goal frag = some s' ∧ Inv K x s' := by
  obtain ⟨t, ht⟩ := h
  obtain ⟨hkey, hfrag⟩ := hop
  obtain ⟨a, ha, -, hfind⟩ | ⟨hne, hfind⟩ := ht.find hx hkey
  · refine ⟨{ s with pf_fragqueue := a :: s.pf_fragqueue.erase a }, ?_, t, ht.isTree, ?_, ht.mem⟩
    · simp [pf_fillup_fragment, hfind]
    · exact ht.perm.trans (List.perm_cons_erase ha)
  · obtain ⟨s₁, hflush, hfr, hq, t₁, ht₁⟩ := Inv.flush ⟨t, ht⟩ goal
    cases frag with
    | none => exact ⟨s₁, by simp [pf_fillup_fragment, hfind, hflush], t₁, ht₁⟩
    | some frag =>
      obtain ⟨s', hinsert, hinv⟩ := ht₁.insert hx hkey (hq ▸ hfrag frag rfl) fun a ha => by
        rw [hfr]
        exact hne a (List.mem_of_mem_take (hq ▸ ha))
      exact ⟨s', by simp [pf_fillup_fragment, hfind, hflush, hinsert], hinv⟩

theorem Inv.exec (h : Inv K x s) (hx : ∀ k ∈ K, (k.fr_id - x).toNat < 2 ^ 31) {op : Op}
    (hop : op.Allowed K s) : ∃ s', op.exec s = some s' ∧ Inv K x s' := by
  cases op with
  | fillup key goal frag => exact h.fillup hx hop
  | free frag =>
    obtain ⟨t, ht⟩ := h
    obtain ⟨s', hfree, -, -, hinv⟩ := ht.free hop
    exact ⟨s', hfree, hinv⟩

theorem Reached.inv (h : Reached K s) (hx : ∀ k ∈ K, (k.fr_id - x).toNat < 2 ^ 31) : Inv K x s := by
  induction h with
  | init fr rbe rbe_parent rbe_color =>
    refine ⟨.nil, ⟨⟨rfl, trivial, List.nodup_nil⟩, List.Pairwise.nil, rfl, 0, balanced_nil.2 rfl⟩, ?_, ?_⟩
    · exact List.Perm.refl []
    · simp
  | step op _ hop hexec ih =>
    obtain ⟨s', hexec', hinv⟩ := ih.exec hx hop
    rw [hexec, Option.some_inj] at hexec'
    exact hexec' ▸ hinv

theorem Stored.findsStored (h : Stored K x s t) (hx : ∀ k ∈ K, (k.fr_id - x).toNat < 2 ^ 31) :
    FindsStored s := by
  intro a ha
  have hself := (compareFrom_comparator x).self (s.fr a)
  have hmem := h.perm.mem_iff.2 ha
  obtain ⟨b, hb, hz, hfind⟩ | ⟨hne, -⟩ := h.find hx (h.mem a hmem)
  · obtain rfl := h.isTree.sorted.eq_of_cmp (compareAt_comparator x s.fr) hmem (h.perm.mem_iff.2 hb) hz
    exact hfind
  · exact absurd hself (hne a ha)

theorem HalfCircle.finds (h : HalfCircle K) : Finds K := by
  obtain ⟨x, hx⟩ := h
  intro s hs
  have hinv := hs.inv hx
  refine ⟨fun op hop => ?_, ?_⟩
  · obtain ⟨s', hexec, -⟩ := hinv.exec hx hop
    exact Option.isSome_of_eq_some hexec
  · obtain ⟨t, ht⟩ := hinv
    exact ht.findsStored hx

end Runs

/-- The keys are in order, and every pending datagram is found in every run with these keys, if
and only if the identifiers lie in one half of their circle. -/
theorem pf_frag_compare_orders (K : Set FragKey) : (Orders K ∧ Finds K) ↔ HalfCircle K :=
  ⟨fun h => h.1.halfCircle, fun h => ⟨h.orders, h.finds⟩⟩

/-- A key that differs from others of its kind in the identifier. -/
def echoKey (id : UInt32) : FragKey := ⟨⟨fun _ => 1⟩, ⟨fun _ => 2⟩, id, AF_INET6, 58⟩

/-- Two identifiers opposite of each other are each smaller than the other, three may go round in
a circle; with the first of these gone, the last is pending and not found. -/
theorem pf_frag_compare_circle :
    pf_frag_compare (echoKey 0) (echoKey 0x80000000) < 0 ∧
      pf_frag_compare (echoKey 0x80000000) (echoKey 0) < 0 ∧
      pf_frag_compare (echoKey 0) (echoKey 0x60000000) < 0 ∧
      pf_frag_compare (echoKey 0x60000000) (echoKey 0xC0000000) < 0 ∧
      pf_frag_compare (echoKey 0xC0000000) (echoKey 0) < 0 ∧
      ∃ s, Reached Set.univ s ∧ 2 ∈ s.pf_fragqueue ∧ s.fr 2 = echoKey 0xC0000000 ∧
        (pf_find_fragment s (s.fr 2)).map Prod.snd = some none := by
  refine ⟨by decide, by decide, by decide, by decide, by decide, ?_⟩
  have h₀ := Reached.init (K := Set.univ) (fun _ => echoKey 0) (fun _ _ => none) (fun _ => none) fun _ => .red
  have h₁ := h₀.step (.fillup (echoKey 0) 0 (some 0)) ⟨trivial, by decide⟩ rfl
  have h₂ := h₁.step (.fillup (echoKey 0x60000000) 0 (some 1)) ⟨trivial, by decide⟩ rfl
  have h₃ := h₂.step (.fillup (echoKey 0xC0000000) 0 (some 2)) ⟨trivial, by decide⟩ rfl
  have h₄ := h₃.step (.free 0) (show 0 ∈ State.pf_fragqueue _ by decide) rfl
  exact ⟨_, h₄, by decide, by decide, by decide⟩

end OpenbsdKernel.PfFrag
