import OpenbsdKernel.Uvm.Addr.Fitspace

/-!
# The linear search

The search takes the first entry in which the request fits and answers with its lowest or
highest address, or with the hint where that lies between the two. The bounds of the entry
have the residue that was asked for, the hint need not.
-/
namespace OpenbsdKernel.UvmAddr

open BinTree

/-- The entries of a map are in order and do not wrap or overlap. -/
structure MapOk (map : Bin Entry) : Prop where
  entry : ∀ e ∈ map.toList, e.start.toNat ≤ e.end_.toNat ∧
    e.end_.toNat + e.guard.toNat + e.fspace.toNat < 2 ^ 64
  sorted : map.toList.Pairwise fun x y => (VMMAP_FREE_END x).toNat ≤ y.start.toNat

theorem free_start_toNat {e : Entry} (h : e.end_.toNat + e.guard.toNat + e.fspace.toNat < 2 ^ 64) :
    (VMMAP_FREE_START e).toNat = e.end_.toNat + e.guard.toNat := by
  rw [VMMAP_FREE_START, BitVec.toNat_add]
  omega

theorem free_end_toNat {e : Entry} (h : e.end_.toNat + e.guard.toNat + e.fspace.toNat < 2 ^ 64) :
    (VMMAP_FREE_END e).toNat = e.end_.toNat + e.guard.toNat + e.fspace.toNat := by
  rw [VMMAP_FREE_END, BitVec.toNat_add, BitVec.toNat_add]
  omega

theorem mem_of_entrybyaddr {map : Bin Entry} {addr : vaddr_t} : ∀ {prev e next},
    uvm_map_entrybyaddr map addr = some (prev, e, next) →
      e ∈ map.toList ∧ (∀ x ∈ prev, x ∈ map.toList) ∧ ∀ x ∈ next, x ∈ map.toList := by
  induction map with
  | nil => intro prev e next h; cases h
  | node l iter r ihl ihr =>
    intro prev e next h
    rw [uvm_map_entrybyaddr] at h
    split_ifs at h with h1 h2
    · obtain ⟨⟨p, x, n⟩, hx, heq⟩ := Option.map_eq_some_iff.mp h
      cases heq
      obtain ⟨he, hp, hn⟩ := ihl hx
      refine ⟨by simp [he], fun y hy => by simp [hp y hy], fun y hy => ?_⟩
      obtain hy | hy := List.mem_append.mp hy
      · simp [hn y hy]
      · exact List.mem_append_right _ hy
    · obtain ⟨⟨p, x, n⟩, hx, heq⟩ := Option.map_eq_some_iff.mp h
      cases heq
      obtain ⟨he, hp, hn⟩ := ihr hx
      refine ⟨by simp [he], fun y hy => ?_, fun y hy => by simp [hn y hy]⟩
      obtain hy | hy := List.mem_append.mp hy
      · simp [hp y hy]
      · obtain rfl | hy := List.mem_cons.mp hy
        · simp
        · simp [List.mem_reverse.mp hy]
    · cases h
      exact ⟨by simp, fun y hy => by simp [List.mem_reverse.mp hy], fun y hy => by simp [hy]⟩

theorem MapOk.left {l r : Bin Entry} {iter : Entry} (h : MapOk (.node l iter r)) : MapOk l :=
  ⟨fun e he => h.entry e (by simp [he]), (List.pairwise_append.mp h.sorted).1⟩

theorem MapOk.right {l r : Bin Entry} {iter : Entry} (h : MapOk (.node l iter r)) : MapOk r :=
  ⟨fun e he => h.entry e (by simp [he]),
    (List.pairwise_cons.mp (List.pairwise_append.mp h.sorted).2.1).2⟩

theorem entrybyaddr_of_mem {map : Bin Entry} (h : MapOk map) {e : Entry} (he : e ∈ map.toList)
    (addr : vaddr_t) (hlo : e.start.toNat ≤ addr.toNat)
    (hhi : addr.toNat < (VMMAP_FREE_END e).toNat) :
    ∃ prev next, uvm_map_entrybyaddr map addr = some (prev, e, next) := by
  induction map with
  | nil => simp at he
  | node l iter r ihl ihr =>
    obtain ⟨hli, hwrap⟩ := h.entry iter (by simp)
    have hend := free_end_toNat hwrap
    obtain ⟨-, hright, hleft⟩ := List.pairwise_append.mp h.sorted
    rw [uvm_map_entrybyaddr]
    rw [Bin.toList_node] at he
    obtain he | he := List.mem_append.mp he
    · have hbefore := hleft e he iter (by simp)
      obtain ⟨prev, next, hfound⟩ := ihl h.left he
      rw [if_pos (by rw [gt_iff_lt, BitVec.lt_def]; omega), hfound]
      exact ⟨prev, next ++ iter :: r.toList, rfl⟩
    · obtain rfl | he := List.mem_cons.mp he
      · rw [if_neg (by rw [gt_iff_lt, BitVec.lt_def]; omega),
          if_neg (by rw [BitVec.le_def]; omega)]
        exact ⟨_, _, rfl⟩
      · have hafter := (List.pairwise_cons.mp hright).1 e he
        obtain ⟨prev, next, hfound⟩ := ihr h.right he
        rw [if_neg (by rw [gt_iff_lt, BitVec.lt_def]; omega),
          if_pos (by rw [BitVec.le_def]; omega), hfound]
        exact ⟨prev ++ iter :: l.toList.reverse, next, rfl⟩

section Search
variable {PAGE_SHIFT k : Fin 64} {map : Bin Entry} {direction : ℤ}
  {hint low high sz offset before_gap after_gap : vaddr_t}

/-- The addresses that fit in the free space of an entry, between `low` and `high`. -/
def FitsIn (PAGE_SHIFT : Fin 64) (low high sz align offset before_gap after_gap : vaddr_t)
    (e : Entry) : Set ℕ :=
  Fits PAGE_SHIFT (MAX low (VMMAP_FREE_START e)) (MIN high (VMMAP_FREE_END e)) sz align offset
    before_gap after_gap

theorem mem_fitsIn {align : vaddr_t} {e : Entry} {a : ℕ} :
    a ∈ FitsIn PAGE_SHIFT low high sz align offset before_gap after_gap e ↔
      a ≡ offset.toNat [MOD max align.toNat (2 ^ PAGE_SHIFT.val)] ∧
      max low.toNat (VMMAP_FREE_START e).toNat + before_gap.toNat ≤ a ∧
      a + sz.toNat + after_gap.toNat ≤ min high.toNat (VMMAP_FREE_END e).toNat := by
  rw [FitsIn, Fits, MAX_toNat, MIN_toNat]
  rfl

theorem searchEntries_spec (direction : ℤ) (hint low high : vaddr_t) (ho : offset < BitVec.twoPow 64 k)
    (hpage : offset.toNat % 2 ^ PAGE_SHIFT.val = 0)
    (hsum : sz.toNat + before_gap.toNat + after_gap.toNat < 2 ^ 64) (l : List Entry) :
    (∃ err, searchEntries PAGE_SHIFT hint sz (BitVec.twoPow 64 k) offset direction low high
      before_gap after_gap l = some (.error err)) ∨
    ∃ e ∈ l, ∃ lo hi : vaddr_t,
      IsLeast (FitsIn PAGE_SHIFT low high sz (BitVec.twoPow 64 k) offset before_gap after_gap e)
        lo.toNat ∧
      IsGreatest (FitsIn PAGE_SHIFT low high sz (BitVec.twoPow 64 k) offset before_gap after_gap e)
        hi.toNat ∧
      searchEntries PAGE_SHIFT hint sz (BitVec.twoPow 64 k) offset direction low high before_gap
        after_gap l = some (.ok (e, if hint ≥ lo ∧ hint ≤ hi then hint
          else if direction = 1 then lo else hi)) := by
  induction l with
  | nil => exact .inl ⟨_, rfl⟩
  | cons entry rest ih =>
    rw [searchEntries]
    by_cases hout : VMMAP_FREE_START entry > high ∨ VMMAP_FREE_END entry < low
    · rw [if_pos hout]
      exact .inl ⟨_, rfl⟩
    rw [if_neg hout]
    have hfit := fitspace_spec (MAX low (VMMAP_FREE_START entry))
      (MIN high (VMMAP_FREE_END entry)) ho hpage hsum
    cases hr : uvm_addr_fitspace PAGE_SHIFT (MAX low (VMMAP_FREE_START entry))
        (MIN high (VMMAP_FREE_END entry)) sz (BitVec.twoPow 64 k) offset before_gap after_gap with
    | none => rw [hr] at hfit; exact hfit.elim
    | some res =>
      rw [hr] at hfit
      cases res with
      | error err =>
        obtain ⟨err', h⟩ | ⟨e, he, hrest⟩ := ih
        · exact .inl ⟨err', h⟩
        · exact .inr ⟨e, List.mem_cons_of_mem _ he, hrest⟩
      | ok bounds =>
        obtain ⟨lo, hi⟩ := bounds
        obtain ⟨hlo, hhi⟩ := hfit
        exact .inr ⟨entry, List.mem_cons_self, lo, hi, hlo, hhi, rfl⟩

theorem searchEntries_hint (direction : ℤ) (ho : offset < BitVec.twoPow 64 k)
    (hpage : offset.toNat % 2 ^ PAGE_SHIFT.val = 0)
    (hsum : sz.toNat + before_gap.toNat + after_gap.toNat < 2 ^ 64) {e : Entry} {a b : ℕ}
    (ha : a ∈ FitsIn PAGE_SHIFT low high sz (BitVec.twoPow 64 k) offset before_gap after_gap e)
    (hb : b ∈ FitsIn PAGE_SHIFT low high sz (BitVec.twoPow 64 k) offset before_gap after_gap e)
    (hah : a < hint.toNat) (hhb : hint.toNat < b) (rest : List Entry) :
    searchEntries PAGE_SHIFT hint sz (BitVec.twoPow 64 k) offset direction low high before_gap
      after_gap (e :: rest) = some (.ok (e, hint)) := by
  have hfit := fitspace_spec (MAX low (VMMAP_FREE_START e)) (MIN high (VMMAP_FREE_END e))
    ho hpage hsum
  obtain ⟨-, halo, hahi⟩ := mem_fitsIn.mp ha
  have hin : ¬ (VMMAP_FREE_START e > high ∨ VMMAP_FREE_END e < low) := by
    rw [gt_iff_lt, BitVec.lt_def, BitVec.lt_def]
    omega
  rw [searchEntries, if_neg hin]
  cases hr : uvm_addr_fitspace PAGE_SHIFT (MAX low (VMMAP_FREE_START e))
      (MIN high (VMMAP_FREE_END e)) sz (BitVec.twoPow 64 k) offset before_gap after_gap with
  | none => rw [hr] at hfit; exact hfit.elim
  | some res =>
    rw [hr] at hfit
    cases res with
    | error err => exact absurd ha (by rw [FitsIn, hfit]; exact Set.notMem_empty a)
    | ok bounds =>
      obtain ⟨lo, hi⟩ := bounds
      obtain ⟨hlo, hhi⟩ := hfit
      have hbetween : hint ≥ lo ∧ hint ≤ hi := by
        rw [ge_iff_le, BitVec.le_def, BitVec.le_def]
        have := hlo.2 ha
        have := hhi.2 hb
        omega
      simp [hbetween]

/-- What `uvm_addr_linsearch` promises of an address: the residue, and a range that with
both gaps is in the free space of the entry and between `low` and `high`. -/
def SearchRight (PAGE_SHIFT : Fin 64) (map : Bin Entry)
    (low high sz align offset before_gap after_gap : vaddr_t) :
    Option (Except Errno (Entry × vaddr_t)) → Prop
  | some (.ok (entry_out, addr_out)) => entry_out ∈ map.toList ∧
    addr_out.toNat ≡ offset.toNat [MOD max align.toNat (2 ^ PAGE_SHIFT.val)] ∧
    (VMMAP_FREE_START entry_out).toNat + before_gap.toNat ≤ addr_out.toNat ∧
    addr_out.toNat + sz.toNat + after_gap.toNat ≤ (VMMAP_FREE_END entry_out).toNat ∧
    low.toNat + before_gap.toNat ≤ addr_out.toNat ∧
    addr_out.toNat + sz.toNat + after_gap.toNat ≤ high.toNat
  | some (.error _) => True
  | none => False

/-- The hint has the residue, or no entry has fitting addresses on both sides of it. -/
def HintFits (PAGE_SHIFT : Fin 64) (map : Bin Entry)
    (hint low high sz align offset before_gap after_gap : vaddr_t) : Prop :=
  hint.toNat ≡ offset.toNat [MOD max align.toNat (2 ^ PAGE_SHIFT.val)] ∨
  ∀ e ∈ map.toList, ∀ a ∈ FitsIn PAGE_SHIFT low high sz align offset before_gap after_gap e,
    ∀ b ∈ FitsIn PAGE_SHIFT low high sz align offset before_gap after_gap e,
      ¬(a < hint.toNat ∧ hint.toNat < b)

theorem startHint_eq_some {hint' : vaddr_t} (h : startHint hint direction low high = some hint') :
    hint' = hint ∨ hint' = low ∨ hint' = high := by
  rw [startHint] at h
  split_ifs at h <;> cases h <;> simp

/-- Between two bounds, the search starts at the hint itself. -/
theorem startHint_self (direction : ℤ) {a b : ℕ} (hah : a < hint.toNat) (hhb : hint.toNat < b)
    (hlow : low.toNat ≤ a) (hhigh : b ≤ high.toNat) :
    startHint hint direction low high = some hint := by
  have hzero : hint ≠ 0 := by
    rintro rfl
    exact absurd hah (Nat.not_lt_zero a)
  have hbelow : ¬ hint > high := by
    rw [gt_iff_lt, BitVec.lt_def]
    omega
  have habove : ¬ hint < low := by
    rw [BitVec.lt_def]
    omega
  rw [startHint, if_neg hzero, if_neg hbelow, if_neg habove]

theorem searchRight_of_hintFits (ho : offset < BitVec.twoPow 64 k)
    (hpage : offset.toNat % 2 ^ PAGE_SHIFT.val = 0)
    (hsum : sz.toNat + before_gap.toNat + after_gap.toNat < 2 ^ 64) (hsz : high + sz > high)
    (hok : HintFits PAGE_SHIFT map hint low high sz (BitVec.twoPow 64 k) offset before_gap after_gap)
    {hint' : vaddr_t} (hstart : startHint hint direction low high = some hint') {l : List Entry}
    (hl : ∀ e ∈ l, e ∈ map.toList) :
    SearchRight PAGE_SHIFT map low high sz (BitVec.twoPow 64 k) offset before_gap after_gap
      (searchEntries PAGE_SHIFT hint' sz (BitVec.twoPow 64 k) offset direction low high before_gap
        after_gap l) := by
  obtain ⟨err, herr⟩ | ⟨e, he, lo, hi, hlo, hhi, hres⟩ :=
    searchEntries_spec direction hint' low high ho hpage hsum l
  · rw [herr]
    trivial
  obtain ⟨hlomod, hlomin, hlomax⟩ := mem_fitsIn.mp hlo.1
  obtain ⟨hhimod, hhimin, hhimax⟩ := mem_fitsIn.mp hhi.1
  have hlohi := hlo.2 hhi.1
  rw [hres]
  by_cases hbetween : hint' ≥ lo ∧ hint' ≤ hi
  · rw [if_pos hbetween]
    rw [ge_iff_le, BitVec.le_def, BitVec.le_def] at hbetween
    refine ⟨hl e he, ?_, by omega, by omega, by omega, by omega⟩
    obtain heq | hne := eq_or_ne hint'.toNat lo.toNat
    · rwa [heq]
    obtain heq | hne' := eq_or_ne hint'.toNat hi.toNat
    · rwa [heq]
    -- strictly inside the bounds only the caller's own hint is left
    have hszpos : 0 < sz.toNat := by
      by_contra hzero
      have hz : sz = 0#64 := BitVec.eq_of_toNat_eq (by rw [BitVec.toNat_zero]; omega)
      rw [hz, BitVec.add_zero] at hsz
      exact BitVec.lt_irrefl _ hsz
    obtain rfl | rfl | rfl := startHint_eq_some hstart
    · exact hok.resolve_right fun h =>
        h e (hl e he) lo.toNat hlo.1 hi.toNat hhi.1 ⟨by omega, by omega⟩
    · omega
    · omega
  · rw [if_neg hbetween]
    split_ifs with hdir
    · exact ⟨hl e he, hlomod, by omega, by omega, by omega, by omega⟩
    · exact ⟨hl e he, hhimod, by omega, by omega, by omega, by omega⟩

theorem linsearch_eq (map : Bin Entry) (sz align offset : vaddr_t)
    (hdir : direction = -1 ∨ direction = 1)
    (halign : hint &&& PAGE_MASK PAGE_SHIFT = 0 ∧ high &&& PAGE_MASK PAGE_SHIFT = 0 ∧
      low &&& PAGE_MASK PAGE_SHIFT = 0 ∧ before_gap &&& PAGE_MASK PAGE_SHIFT = 0 ∧
      after_gap &&& PAGE_MASK PAGE_SHIFT = 0) (hsz : high + sz > high) :
    uvm_addr_linsearch PAGE_SHIFT map hint sz align offset direction low high before_gap after_gap =
      match startHint hint direction low high with
      | none => some (.error .ENOMEM)
      | some hint =>
        match uvm_map_entrybyaddr map (hint - if direction = -1 then 1 else 0) with
        | none => some (.error .ENOMEM)
        | some (prev, entry, next) =>
          searchEntries PAGE_SHIFT hint sz align offset direction low high before_gap after_gap
            (entry :: if direction = 1 then next else prev) := by
  rw [uvm_addr_linsearch, guard, if_pos hdir, guard, if_pos halign, guard, if_pos hsz]
  rfl

theorem linsearch_hint (hmap : MapOk map) (hdir : direction = -1 ∨ direction = 1)
    (halign : hint &&& PAGE_MASK PAGE_SHIFT = 0 ∧ high &&& PAGE_MASK PAGE_SHIFT = 0 ∧
      low &&& PAGE_MASK PAGE_SHIFT = 0 ∧ before_gap &&& PAGE_MASK PAGE_SHIFT = 0 ∧
      after_gap &&& PAGE_MASK PAGE_SHIFT = 0) (hsz : high + sz > high)
    (ho : offset < BitVec.twoPow 64 k) (hpage : offset.toNat % 2 ^ PAGE_SHIFT.val = 0)
    (hsum : sz.toNat + before_gap.toNat + after_gap.toNat < 2 ^ 64)
    {e : Entry} (he : e ∈ map.toList) {a b : ℕ}
    (ha : a ∈ FitsIn PAGE_SHIFT low high sz (BitVec.twoPow 64 k) offset before_gap after_gap e)
    (hb : b ∈ FitsIn PAGE_SHIFT low high sz (BitVec.twoPow 64 k) offset before_gap after_gap e)
    (hah : a < hint.toNat) (hhb : hint.toNat < b) :
    uvm_addr_linsearch PAGE_SHIFT map hint sz (BitVec.twoPow 64 k) offset direction low high
      before_gap after_gap = some (.ok (e, hint)) := by
  obtain ⟨-, halo, -⟩ := mem_fitsIn.mp ha
  obtain ⟨-, -, hbhi⟩ := mem_fitsIn.mp hb
  obtain ⟨hle, hwrap⟩ := hmap.entry e he
  have hfree := free_start_toNat hwrap
  have hback : (hint - if direction = -1 then 1 else 0).toNat =
      hint.toNat - if direction = -1 then 1 else 0 := by
    split_ifs
    · exact BitVec.toNat_sub_of_le (by rw [BitVec.le_def]; exact Nat.one_le_of_lt hah)
    · exact congrArg BitVec.toNat (BitVec.sub_zero hint)
  obtain ⟨prev, next, hfound⟩ := entrybyaddr_of_mem hmap he
    (hint - if direction = -1 then 1 else 0)
    (by rw [hback]; split_ifs <;> omega) (by rw [hback]; split_ifs <;> omega)
  rw [linsearch_eq map sz _ offset hdir halign hsz, startHint_self direction hah hhb (by omega) (by omega)]
  dsimp only
  rw [hfound]
  exact searchEntries_hint direction ho hpage hsum ha hb hah hhb _

/-- Both functions do what they are for exactly when the hint fits: `uvm_addr_linsearch`
answers with the hint of its caller as it is. -/
theorem addr_search_iff (hmap : MapOk map) (hdir : direction = -1 ∨ direction = 1)
    (halign : hint &&& PAGE_MASK PAGE_SHIFT = 0 ∧ high &&& PAGE_MASK PAGE_SHIFT = 0 ∧
      low &&& PAGE_MASK PAGE_SHIFT = 0 ∧ before_gap &&& PAGE_MASK PAGE_SHIFT = 0 ∧
      after_gap &&& PAGE_MASK PAGE_SHIFT = 0) (hsz : high + sz > high)
    (ho : offset < BitVec.twoPow 64 k) (hpage : offset &&& PAGE_MASK PAGE_SHIFT = 0)
    (hsum : sz.toNat + before_gap.toNat + after_gap.toNat < 2 ^ 64) :
    (∀ low_addr high_addr, FitspaceRight
        (Fits PAGE_SHIFT low_addr high_addr sz (BitVec.twoPow 64 k) offset before_gap after_gap)
        (uvm_addr_fitspace PAGE_SHIFT low_addr high_addr sz (BitVec.twoPow 64 k) offset before_gap
          after_gap)) ∧
      SearchRight PAGE_SHIFT map low high sz (BitVec.twoPow 64 k) offset before_gap after_gap
        (uvm_addr_linsearch PAGE_SHIFT map hint sz (BitVec.twoPow 64 k) offset direction low high
          before_gap after_gap) ↔
    HintFits PAGE_SHIFT map hint low high sz (BitVec.twoPow 64 k) offset before_gap after_gap := by
  have hpage' := (and_mask_eq_zero offset PAGE_SHIFT).mp hpage
  constructor
  · rintro ⟨-, hright⟩
    refine or_iff_not_imp_right.mpr fun hsides => ?_
    push Not at hsides
    obtain ⟨e, he, a, ha, b, hb, hah, hhb⟩ := hsides
    rw [linsearch_hint hmap hdir halign hsz ho hpage' hsum he ha hb hah hhb] at hright
    exact hright.2.1
  · intro hok
    refine ⟨fun low_addr high_addr => fitspace_spec low_addr high_addr ho hpage' hsum, ?_⟩
    rw [linsearch_eq map sz _ offset hdir halign hsz]
    cases hstart : startHint hint direction low high with
    | none => trivial
    | some hint' =>
      dsimp only
      cases hfound : uvm_map_entrybyaddr map (hint' - if direction = -1 then 1 else 0) with
      | none => trivial
      | some found =>
        obtain ⟨prev, entry, next⟩ := found
        obtain ⟨he, hprev, hnext⟩ := mem_of_entrybyaddr hfound
        refine searchRight_of_hintFits ho hpage' hsum hsz hok hstart fun x hx => ?_
        obtain rfl | hx := List.mem_cons.mp hx
        · exact he
        · split_ifs at hx
          · exact hnext x hx
          · exact hprev x hx

end Search

/-- A map of one entry, with free space from `0x20000` on. -/
def loneMap : Bin Entry := .node .nil ⟨0x10000#64, 0x20000#64, 0#64, 0x100000#64⟩ .nil

theorem loneMap_ok : MapOk loneMap where
  entry := by decide
  sorted := List.pairwise_singleton _ _

/-- The hint `0x30000` has the residue. -/
theorem addr_search_iff_aligned :
    SearchRight 12 loneMap 0x1000#64 0x200000#64 0x1000#64 (BitVec.twoPow 64 16) 0#64 0#64 0#64
      (uvm_addr_linsearch 12 loneMap 0x30000#64 0x1000#64 (BitVec.twoPow 64 16) 0#64 1 0x1000#64
        0x200000#64 0#64 0#64) :=
  ((@addr_search_iff 12 16 loneMap 1 0x30000#64 0x1000#64 0x200000#64 0x1000#64 0#64 0#64 0#64
    loneMap_ok (.inr rfl) (by decide) (by decide) (by decide) (by decide) (by decide)).mpr
      (.inl (by decide))).2

/-- The hint `0x31000` has not, and is the answer. -/
theorem linsearch_unaligned :
    MapOk loneMap ∧
      uvm_addr_linsearch 12 loneMap 0x31000#64 0x1000#64 (BitVec.twoPow 64 16) 0#64 1 0x1000#64
        0x200000#64 0#64 0#64 =
        some (.ok (⟨0x10000#64, 0x20000#64, 0#64, 0x100000#64⟩, 0x31000#64)) ∧
      ¬SearchRight 12 loneMap 0x1000#64 0x200000#64 0x1000#64 (BitVec.twoPow 64 16) 0#64 0#64 0#64
        (uvm_addr_linsearch 12 loneMap 0x31000#64 0x1000#64 (BitVec.twoPow 64 16) 0#64 1 0x1000#64
          0x200000#64 0#64 0#64) := by
  have hres : uvm_addr_linsearch 12 loneMap 0x31000#64 0x1000#64 (BitVec.twoPow 64 16) 0#64 1
      0x1000#64 0x200000#64 0#64 0#64 =
        some (.ok (⟨0x10000#64, 0x20000#64, 0#64, 0x100000#64⟩, 0x31000#64)) := by decide
  refine ⟨loneMap_ok, hres, fun hright => ?_⟩
  rw [hres] at hright
  exact absurd hright.2.1 (by decide)

end OpenbsdKernel.UvmAddr
