import OpenbsdKernel.Kern.Pool.Basic

/-!
# The pages of a pool

`Ok` is what holds of a pool whenever `pr_mtx` is free: `out` are the items that are handed out,
`outside` the pages some thread has allocated and not yet inserted or removed and not yet freed,
and `getting` the number of gets that are counted and wait for a page. One lemma for each thing
that is done to a pool says how these change.
-/
namespace OpenbsdKernel.Pool

theorem length_itemsFrom (cfg : Config) (c : ℕ) : (cfg.itemsFrom c).length = cfg.pr_itemsperpage := by
  simp [Config.itemsFrom]

theorem nodup_itemsFrom (cfg : Config) (c : ℕ) : (cfg.itemsFrom c).Nodup := by
  refine List.nodup_range.map fun m n hmn => ?_
  exact Nat.eq_of_mul_eq_mul_right cfg.size_pos (Nat.add_left_cancel hmn)

theorem mem_itemsFrom_range {cfg : Config} {c i : ℕ} (hi : i ∈ cfg.itemsFrom c) :
    c ≤ i ∧ i < c + cfg.pr_itemsperpage * cfg.pr_size := by
  obtain ⟨n, hn, rfl⟩ := List.mem_map.1 hi
  have hlt := Nat.mul_lt_mul_of_pos_right (List.mem_range.1 hn) cfg.size_pos
  omega

/-- The free list of a page has items of the page, and the others are missing. -/
structure Header.Ok (cfg : Config) (page : ℕ) (hdr : Header) : Prop where
  colored_ge : page ≤ hdr.ph_colored
  colored_le : hdr.ph_colored + cfg.pr_itemsperpage * cfg.pr_size ≤ page + cfg.pr_pgsize
  nodup : hdr.ph_itemlist.Nodup
  items : ∀ i ∈ hdr.ph_itemlist, i ∈ cfg.itemsFrom hdr.ph_colored
  count : (hdr.ph_itemlist.length : ℤ) + hdr.ph_nmissing = cfg.pr_itemsperpage

namespace Header.Ok

variable {cfg : Config} {page i : ℕ} {hdr : Header}

theorem range (h : hdr.Ok cfg page) (hi : i ∈ cfg.itemsFrom hdr.ph_colored) :
    page ≤ i ∧ i < page + cfg.pr_pgsize := by
  have hrange := mem_itemsFrom_range hi
  have hge := h.colored_ge
  have hle := h.colored_le
  omega

/-- An item that is not free is missing. -/
theorem nmissing_pos (h : hdr.Ok cfg page) (hi : i ∈ cfg.itemsFrom hdr.ph_colored)
    (hfree : i ∉ hdr.ph_itemlist) : 0 < hdr.ph_nmissing := by
  have hsub : i :: hdr.ph_itemlist ⊆ cfg.itemsFrom hdr.ph_colored := by
    intro j hj
    obtain rfl | hj := List.mem_cons.1 hj
    · exact hi
    · exact h.items j hj
  have hlen := ((List.nodup_cons.2 ⟨hfree, h.nodup⟩).subperm hsub).length_le
  rw [List.length_cons, length_itemsFrom] at hlen
  have hcount := h.count
  omega

theorem take {rest : List ℕ} (h : hdr.Ok cfg page) (hlist : hdr.ph_itemlist = i :: rest) :
    Header.Ok cfg page ⟨rest, hdr.ph_nmissing + 1, hdr.ph_colored, hdr.ph_tick⟩ := by
  have hnodup := h.nodup
  have hcount := h.count
  rw [hlist] at hnodup hcount
  refine ⟨h.colored_ge, h.colored_le, hnodup.of_cons, fun j hj => h.items j ?_, ?_⟩
  · rw [hlist]
    exact List.mem_cons_of_mem i hj
  · simp only [List.length_cons] at hcount ⊢
    push_cast at hcount ⊢
    omega

theorem put (h : hdr.Ok cfg page) (hi : i ∈ cfg.itemsFrom hdr.ph_colored) (hfree : i ∉ hdr.ph_itemlist) :
    Header.Ok cfg page ⟨i :: hdr.ph_itemlist, hdr.ph_nmissing - 1, hdr.ph_colored, hdr.ph_tick⟩ := by
  refine ⟨h.colored_ge, h.colored_le, List.nodup_cons.2 ⟨hfree, h.nodup⟩, fun j hj => ?_, ?_⟩
  · obtain rfl | hj := List.mem_cons.1 hj
    · exact hi
    · exact h.items j hj
  · have hcount := h.count
    simp only [List.length_cons]
    push_cast
    omega

theorem nmissing_nonneg (h : hdr.Ok cfg page) : 0 ≤ hdr.ph_nmissing := by
  have hlen := (h.nodup.subperm h.items).length_le
  rw [length_itemsFrom] at hlen
  have hcount := h.count
  omega

end Header.Ok

theorem poolPAlloc_header (cfg : Config) (pp : State) (addr : ℕ) :
    ((poolPAlloc cfg pp addr).ph addr).Ok cfg addr ∧ ((poolPAlloc cfg pp addr).ph addr).ph_nmissing = 0 := by
  have hcolor : cfg.pr_align * (pp.pr_npagealloc.toNat % cfg.pr_maxcolors) ≤ cfg.space := by
    have hlt : pp.pr_npagealloc.toNat % cfg.pr_maxcolors < cfg.space / cfg.pr_align + 1 :=
      Nat.mod_lt _ (Nat.succ_pos _)
    calc cfg.pr_align * (pp.pr_npagealloc.toNat % cfg.pr_maxcolors)
        ≤ cfg.pr_align * (cfg.space / cfg.pr_align) := Nat.mul_le_mul_left _ (Nat.lt_succ_iff.1 hlt)
      _ ≤ cfg.space := Nat.mul_div_le _ _
  have hspace : cfg.space + cfg.pr_itemsperpage * cfg.pr_size ≤ cfg.pr_pgsize := by
    have hfits := cfg.fits
    have hoff := cfg.phoffset_le
    rw [Config.space]
    by_cases hin : cfg.inPgHdr
    · have hne : cfg.pr_phoffset ≠ 0 := hin
      rw [if_pos hne] at hfits
      rw [if_pos hin]
      omega
    · have hne : ¬cfg.pr_phoffset ≠ 0 := hin
      rw [if_neg hne] at hfits
      rw [if_neg hin]
      omega
  simp only [poolPAlloc, Function.update_self]
  refine ⟨⟨?_, ?_, nodup_itemsFrom _ _, fun _ hi => hi, ?_⟩, trivial⟩
  · simp only
    omega
  · simp only
    omega
  · simp only [length_itemsFrom, add_zero]

/-- The pages that are inserted. -/
def State.pages (pp : State) : List ℕ := pp.pr_emptypages ++ pp.pr_partpages ++ pp.pr_fullpages

/-- The header of a page says on which list it is. -/
structure State.Filed (cfg : Config) (pp : State) (ph : ℕ) : Prop where
  empty : ph ∈ pp.pr_emptypages → (pp.ph ph).ph_nmissing = 0
  part : ph ∈ pp.pr_partpages → 0 < (pp.ph ph).ph_nmissing ∧ (pp.ph ph).ph_nmissing < cfg.pr_itemsperpage
  full : ph ∈ pp.pr_fullpages → (pp.ph ph).ph_nmissing = cfg.pr_itemsperpage

/-- Pages of one pool do not overlap, and are aligned where that is how they are found. -/
structure Laid (cfg : Config) (all : Multiset ℕ) : Prop where
  nodup : all.Nodup
  apart : ∀ p ∈ all, ∀ q ∈ all, p ≠ q → p + cfg.pr_pgsize ≤ q ∨ q + cfg.pr_pgsize ≤ p
  aligned : cfg.inPgHdr → ∀ p ∈ all, cfg.pr_pgsize ∣ p

structure Ok (cfg : Config) (pp : State) (out outside : Multiset ℕ) (getting : ℕ) : Prop where
  laid : Laid cfg (pp.pages + outside)
  header : ∀ p ∈ (pp.pages + outside : Multiset ℕ), (pp.ph p).Ok cfg p
  filed : ∀ p, pp.Filed cfg p
  outside : ∀ p ∈ outside, (pp.ph p).ph_nmissing = 0
  curpage : ∀ p, pp.pr_curpage = some p → p ∈ pp.pr_emptypages ∨ p ∈ pp.pr_partpages
  phtree : ¬cfg.inPgHdr → pp.pr_phtree.Perm pp.pages
  npages : pp.pr_npages = BitVec.ofNat 32 pp.pages.length
  nitems : pp.pr_nitems = pp.pr_npages * BitVec.ofNat 32 cfg.pr_itemsperpage
  nidle : pp.pr_nidle = BitVec.ofNat 64 pp.pr_emptypages.length
  nout : pp.pr_nout.toNat = out.card + getting
  out_nodup : out.Nodup
  out_items : ∀ i ∈ out, ∃ p ∈ pp.pages, i ∈ cfg.itemsFrom (pp.ph p).ph_colored ∧ i ∉ (pp.ph p).ph_itemlist

theorem ok_poolInit (cfg : Config) : Ok cfg poolInit 0 0 0 where
  laid := ⟨by simp [State.pages, poolInit], by simp [State.pages, poolInit], by simp [State.pages, poolInit]⟩
  header := by simp [State.pages, poolInit]
  filed := fun p => ⟨nofun, nofun, nofun⟩
  outside := by simp
  curpage := nofun
  phtree := fun _ => List.Perm.nil
  npages := rfl
  nitems := by simp [poolInit]
  nidle := rfl
  nout := rfl
  out_nodup := by simp
  out_items := by simp

section Change

variable {cfg : Config} {pp pp' : State} {out out' outside : Multiset ℕ} {g g' ph : ℕ}

/-- What is left to say of a step that changes the header of one page and its place on the lists. -/
structure Changed (cfg : Config) (pp pp' : State) (ph : ℕ) : Prop where
  pages : pp'.pages.Perm pp.pages
  empty : ∀ q, q ≠ ph → (q ∈ pp'.pr_emptypages ↔ q ∈ pp.pr_emptypages)
  part : ∀ q, q ≠ ph → (q ∈ pp'.pr_partpages ↔ q ∈ pp.pr_partpages)
  full : ∀ q, q ≠ ph → (q ∈ pp'.pr_fullpages ↔ q ∈ pp.pr_fullpages)
  others : ∀ q, q ≠ ph → pp'.ph q = pp.ph q
  header : (pp'.ph ph).Ok cfg ph
  colored : (pp'.ph ph).ph_colored = (pp.ph ph).ph_colored
  filed : pp'.Filed cfg ph
  curpage : ∀ p, pp'.pr_curpage = some p → p ∈ pp'.pr_emptypages ∨ p ∈ pp'.pr_partpages
  phtree : pp'.pr_phtree = pp.pr_phtree
  npages : pp'.pr_npages = pp.pr_npages
  nitems : pp'.pr_nitems = pp.pr_nitems
  nidle : pp'.pr_nidle = BitVec.ofNat 64 pp'.pr_emptypages.length

theorem Ok.changed (h : Ok cfg pp out outside g) (hph : ph ∈ pp.pages) (hc : Changed cfg pp pp' ph)
    (hnout : pp'.pr_nout.toNat = out'.card + g') (hnodup : out'.Nodup)
    (hitems : ∀ i ∈ out', (i ∈ out ∧ i ∉ (pp'.ph ph).ph_itemlist) ∨
      (i ∈ cfg.itemsFrom (pp.ph ph).ph_colored ∧ i ∉ (pp'.ph ph).ph_itemlist)) :
    Ok cfg pp' out' outside g' := by
  have hall : ((pp'.pages : Multiset ℕ) + outside) = pp.pages + outside := by
    rw [Multiset.coe_eq_coe.2 hc.pages]
  have hnotin : ph ∉ outside := fun hin =>
    Multiset.disjoint_left.1 (Multiset.nodup_add.1 h.laid.nodup).2.2 (Multiset.mem_coe.2 hph) hin
  refine ⟨by rw [hall]; exact h.laid, ?_, ?_, ?_, hc.curpage, ?_, ?_, ?_, hc.nidle, hnout, hnodup, ?_⟩
  · intro p hp
    rw [hall] at hp
    by_cases hne : p = ph
    · rw [hne]
      exact hc.header
    · rw [hc.others p hne]
      exact h.header p hp
  · intro p
    by_cases hne : p = ph
    · rw [hne]
      exact hc.filed
    · have hold := h.filed p
      refine ⟨?_, ?_, ?_⟩
      · rw [hc.empty p hne, hc.others p hne]
        exact hold.empty
      · rw [hc.part p hne, hc.others p hne]
        exact hold.part
      · rw [hc.full p hne, hc.others p hne]
        exact hold.full
  · intro p hp
    have hne : p ≠ ph := fun heq => hnotin (heq ▸ hp)
    rw [hc.others p hne]
    exact h.outside p hp
  · intro hin
    rw [hc.phtree]
    exact (h.phtree hin).trans hc.pages.symm
  · rw [hc.npages, h.npages, hc.pages.length_eq]
  · rw [hc.nitems, hc.npages, h.nitems]
  · intro i hi
    obtain ⟨hi, hfree⟩ | hi := hitems i hi
    · obtain ⟨p, hp, hitem, hnot⟩ := h.out_items i hi
      refine ⟨p, hc.pages.mem_iff.2 hp, ?_⟩
      by_cases hne : p = ph
      · rw [hne] at hitem ⊢
        rw [hc.colored]
        exact ⟨hitem, hfree⟩
      · rw [hc.others p hne]
        exact ⟨hitem, hnot⟩
    · refine ⟨ph, hc.pages.mem_iff.2 hph, ?_⟩
      rw [hc.colored]
      exact hi

/-- The page `ph` gets another header, and another place on the lists. -/
def State.refile (pp : State) (ph : ℕ) (hdr : Header) (E P F : List ℕ) (cur : Option ℕ) (nidle : BitVec 64)
    (nout : BitVec 32) : State :=
  { pp with
    pr_nout := nout
    pr_emptypages := E
    pr_partpages := P
    pr_fullpages := F
    pr_curpage := cur
    pr_nidle := nidle
    ph := Function.update pp.ph ph hdr }

theorem changed_refile {hdr : Header} {E P F : List ℕ} {cur : Option ℕ} {nidle : BitVec 64}
    {nout : BitVec 32} (hpages : (E ++ P ++ F).Perm pp.pages)
    (hothers : ∀ q, q ≠ ph → (q ∈ E ↔ q ∈ pp.pr_emptypages) ∧ (q ∈ P ↔ q ∈ pp.pr_partpages) ∧
      (q ∈ F ↔ q ∈ pp.pr_fullpages))
    (hhdr : hdr.Ok cfg ph) (hcol : hdr.ph_colored = (pp.ph ph).ph_colored)
    (hfiled : (ph ∈ E → hdr.ph_nmissing = 0) ∧
      (ph ∈ P → 0 < hdr.ph_nmissing ∧ hdr.ph_nmissing < cfg.pr_itemsperpage) ∧
      (ph ∈ F → hdr.ph_nmissing = cfg.pr_itemsperpage))
    (hcur : ∀ p, cur = some p → p ∈ E ∨ p ∈ P) (hidle : nidle = BitVec.ofNat 64 E.length) :
    Changed cfg pp (pp.refile ph hdr E P F cur nidle nout) ph where
  pages := hpages
  empty q hq := (hothers q hq).1
  part q hq := (hothers q hq).2.1
  full q hq := (hothers q hq).2.2
  others q hq := Function.update_of_ne hq _ _
  header := by
    simp only [State.refile, Function.update_self]
    exact hhdr
  colored := by
    simp only [State.refile, Function.update_self]
    exact hcol
  filed := by
    refine ⟨?_, ?_, ?_⟩ <;> simp only [State.refile, Function.update_self]
    · exact hfiled.1
    · exact hfiled.2.1
    · exact hfiled.2.2
  curpage := hcur
  phtree := rfl
  npages := rfl
  nitems := rfl
  nidle := hidle

/-- `pool_update_curpage` chooses a page with a free item. -/
theorem mem_of_curpage {E P : List ℕ} (p : ℕ) (hp : P.getLast?.or E.getLast? = some p) : p ∈ E ∨ p ∈ P := by
  rw [Option.or_eq_some_iff] at hp
  obtain hp | ⟨-, hp⟩ := hp
  · exact .inr (List.mem_of_getLast? hp)
  · exact .inl (List.mem_of_getLast? hp)

end Change

theorem erase_append_perm {l m : List ℕ} {a : ℕ} (ha : a ∈ l) : (l.erase a ++ (m ++ [a])).Perm (l ++ m) := by
  have h : (l.erase a ++ (m ++ [a])).Perm (a :: l.erase a ++ m) := by
    rw [← List.append_assoc]
    exact List.perm_append_singleton a _
  exact h.trans ((List.perm_cons_erase ha).symm.append_right m)

theorem erase_append_self {l : List ℕ} {a : ℕ} (ha : a ∉ l) : (l ++ [a]).erase a = l := by
  rw [List.erase_append_right [a] ha]
  simp

theorem ofNat_length_erase {l : List ℕ} {a : ℕ} (w : ℕ) (ha : a ∈ l) :
    BitVec.ofNat w l.length - 1 = BitVec.ofNat w (l.erase a).length := by
  have hlen : l.length = (l.erase a).length + 1 := (List.perm_cons_erase ha).length_eq
  rw [hlen, BitVec.ofNat_add]
  exact add_sub_cancel_right _ _

theorem toNat_sub_one {x : BitVec 32} (hx : 0 < x.toNat) : (x - 1).toNat = x.toNat - 1 := by
  rw [BitVec.toNat_sub_of_le]
  · rfl
  · rw [BitVec.le_def]
    exact hx

section Take

variable {cfg : Config} {pp : State} {out outside : Multiset ℕ} {g ph pi : ℕ} {itemlist : List ℕ}

theorem Ok.pages_nodup (h : Ok cfg pp out outside g) : pp.pages.Nodup :=
  Multiset.coe_nodup.1 (Multiset.nodup_add.1 h.laid.nodup).1

theorem Ok.one_list (h : Ok cfg pp out outside g) (ph : ℕ) :
    (ph ∈ pp.pr_emptypages → ph ∉ pp.pr_partpages) ∧
      (ph ∈ pp.pr_emptypages ∨ ph ∈ pp.pr_partpages → ph ∉ pp.pr_fullpages) := by
  have hnodup := h.pages_nodup
  rw [State.pages, List.nodup_append', List.nodup_append'] at hnodup
  refine ⟨fun hp => hnodup.1.2.2 hp, fun hp => hnodup.2.2 (List.mem_append.2 hp)⟩

theorem Ok.page_header (h : Ok cfg pp out outside g) (hph : ph ∈ pp.pages) : (pp.ph ph).Ok cfg ph :=
  h.header ph (Multiset.mem_add.2 (.inl (Multiset.mem_coe.2 hph)))

theorem Ok.page_unique (h : Ok cfg pp out outside g) {p q i : ℕ} (hp : p ∈ (pp.pages + outside : Multiset ℕ))
    (hq : q ∈ (pp.pages + outside : Multiset ℕ)) (hip : i ∈ cfg.itemsFrom (pp.ph p).ph_colored)
    (hiq : i ∈ cfg.itemsFrom (pp.ph q).ph_colored) : p = q := by
  by_contra hne
  have hrp := (h.header p hp).range hip
  have hrq := (h.header q hq).range hiq
  have hapart := h.laid.apart p hp q hq hne
  omega

/-- An item that is handed out is not free. -/
theorem Ok.not_free (h : Ok cfg pp out outside g) {p i : ℕ} (hp : p ∈ pp.pages) (hi : i ∈ out) :
    i ∉ (pp.ph p).ph_itemlist := by
  intro hfree
  obtain ⟨q, hq, hitem, hnot⟩ := h.out_items i hi
  have hmem {r : ℕ} (hr : r ∈ pp.pages) : r ∈ (pp.pages + outside : Multiset ℕ) :=
    Multiset.mem_add.2 (.inl (Multiset.mem_coe.2 hr))
  have heq := h.page_unique (hmem hp) (hmem hq) ((h.page_header hp).items i hfree) hitem
  exact hnot (heq ▸ hfree)

@[simp] theorem getItem_nout (cfg : Config) (pp : State) (ph : ℕ) (itemlist : List ℕ) :
    (getItem cfg pp ph itemlist).pr_nout = pp.pr_nout := by
  simp only [getItem]
  split <;> split <;> rfl

@[simp] theorem getItem_itemlist (cfg : Config) (pp : State) (ph : ℕ) (itemlist : List ℕ) :
    ((getItem cfg pp ph itemlist).ph ph).ph_itemlist = itemlist := by
  have hph : (getItem cfg pp ph itemlist).ph = (pp.setItems ph itemlist ((pp.ph ph).ph_nmissing + 1)).ph := by
    simp only [getItem]
    split <;> split <;> rfl
  simp [hph, State.setItems]

theorem getItem_changed (h : Ok cfg pp out outside g) (hcur : pp.pr_curpage = some ph)
    (hlist : (pp.ph ph).ph_itemlist = pi :: itemlist) : Changed cfg pp (getItem cfg pp ph itemlist) ph := by
  have hin := h.curpage ph hcur
  have hpages : ph ∈ pp.pages := by
    simp only [State.pages, List.mem_append]
    tauto
  obtain ⟨hEP, hEPF⟩ := h.one_list ph
  have hfull := hEPF hin
  have hhdr := (h.page_header hpages).take hlist
  have hfiled := h.filed ph
  have hnonneg := (h.page_header hpages).nmissing_nonneg
  set hdr : Header := ⟨itemlist, (pp.ph ph).ph_nmissing + 1, (pp.ph ph).ph_colored, (pp.ph ph).ph_tick⟩
  have hnm : hdr.ph_nmissing = (pp.ph ph).ph_nmissing + 1 := rfl
  by_cases hzero : (pp.ph ph).ph_nmissing = 0
  · -- the page was empty
    have hE : ph ∈ pp.pr_emptypages := hin.resolve_right fun hP => by
      have := (hfiled.part hP).1
      omega
    have hP := hEP hE
    have hnotE : ph ∉ pp.pr_emptypages.erase ph :=
      List.Nodup.not_mem_erase (List.nodup_append'.1 (List.nodup_append'.1 h.pages_nodup).1).1
    have hidle : pp.pr_nidle - 1 = BitVec.ofNat 64 (pp.pr_emptypages.erase ph).length := by
      rw [h.nidle, ofNat_length_erase 64 hE]
    by_cases hone : (pp.ph ph).ph_nmissing + 1 = cfg.pr_itemsperpage
    · have hget : getItem cfg pp ph itemlist = pp.refile ph hdr (pp.pr_emptypages.erase ph) pp.pr_partpages
          (pp.pr_fullpages ++ [ph]) (pp.pr_partpages.getLast?.or (pp.pr_emptypages.erase ph).getLast?)
          (pp.pr_nidle - 1) pp.pr_nout := by
        simp only [getItem, if_pos hzero, if_pos hone, State.setItems, erase_append_self hP]
        rfl
      rw [hget]
      refine changed_refile ?_ ?_ hhdr rfl ⟨fun hp => absurd hp hnotE, fun hp => absurd hp hP, fun _ => ?_⟩
        mem_of_curpage hidle
      · have hperm : (pp.pr_emptypages.erase ph ++ (pp.pr_partpages ++ pp.pr_fullpages ++ [ph])).Perm
            (pp.pr_emptypages ++ (pp.pr_partpages ++ pp.pr_fullpages)) := erase_append_perm hE
        simpa only [State.pages, List.append_assoc] using hperm
      · intro q hq
        simp [hq, List.mem_erase_of_ne hq]
      · rw [hnm, hone]
    · have hget : getItem cfg pp ph itemlist = pp.refile ph hdr (pp.pr_emptypages.erase ph)
          (pp.pr_partpages ++ [ph]) pp.pr_fullpages pp.pr_curpage (pp.pr_nidle - 1) pp.pr_nout := by
        simp only [getItem, if_pos hzero, if_neg hone, State.setItems]
        rfl
      rw [hget]
      refine changed_refile ?_ ?_ hhdr rfl ⟨fun hp => absurd hp hnotE, fun _ => ?_, fun hp => absurd hp hfull⟩
        ?_ hidle
      · exact (erase_append_perm hE).append_right _
      · intro q hq
        simp [hq, List.mem_erase_of_ne hq]
      · have hpos := cfg.items_pos
        omega
      · intro p hp
        rw [hcur] at hp
        cases hp
        exact .inr (by simp)
  · -- the page was in use
    have hP : ph ∈ pp.pr_partpages := hin.resolve_left fun hE => hzero (hfiled.empty hE)
    have hE : ph ∉ pp.pr_emptypages := fun hE => hEP hE hP
    have hpart := hfiled.part hP
    have hnotP : ph ∉ pp.pr_partpages.erase ph :=
      List.Nodup.not_mem_erase (List.nodup_append'.1 (List.nodup_append'.1 h.pages_nodup).1).2.1
    by_cases hone : (pp.ph ph).ph_nmissing + 1 = cfg.pr_itemsperpage
    · have hget : getItem cfg pp ph itemlist = pp.refile ph hdr pp.pr_emptypages (pp.pr_partpages.erase ph)
          (pp.pr_fullpages ++ [ph]) ((pp.pr_partpages.erase ph).getLast?.or pp.pr_emptypages.getLast?)
          pp.pr_nidle pp.pr_nout := by
        simp only [getItem, if_neg hzero, if_pos hone, State.setItems]
        rfl
      rw [hget]
      refine changed_refile ?_ ?_ hhdr rfl ⟨fun hp => absurd hp hE, fun hp => absurd hp hnotP, fun _ => ?_⟩
        mem_of_curpage h.nidle
      · have hperm := (erase_append_perm (m := pp.pr_fullpages) hP).append_left pp.pr_emptypages
        simpa only [State.pages, List.append_assoc] using hperm
      · intro q hq
        simp [hq, List.mem_erase_of_ne hq]
      · rw [hnm, hone]
    · have hget : getItem cfg pp ph itemlist = pp.refile ph hdr pp.pr_emptypages pp.pr_partpages
          pp.pr_fullpages pp.pr_curpage pp.pr_nidle pp.pr_nout := by
        simp only [getItem, if_neg hzero, if_neg hone, State.setItems]
        rfl
      rw [hget]
      refine changed_refile (List.Perm.refl _) (fun q _ => ⟨Iff.rfl, Iff.rfl, Iff.rfl⟩) hhdr rfl
        ⟨fun hp => absurd hp hE, fun _ => ?_, fun hp => absurd hp hfull⟩ h.curpage h.nidle
      omega

/-- A get that is counted takes an item no one has. -/
theorem Ok.takeItem (h : Ok cfg pp out outside (g + 1)) (hcur : pp.pr_curpage ≠ none) :
    ∃ pi pp', takeItem cfg pp = .ok (pi, pp') ∧ pi ∉ out ∧ Ok cfg pp' (pi ::ₘ out) outside g := by
  obtain ⟨ph, hph⟩ := Option.ne_none_iff_exists'.1 hcur
  have hin := h.curpage ph hph
  have hpages : ph ∈ pp.pages := by
    simp only [State.pages, List.mem_append]
    tauto
  have hhdr := h.page_header hpages
  obtain ⟨pi, itemlist, hlist⟩ : ∃ pi itemlist, (pp.ph ph).ph_itemlist = pi :: itemlist := by
    refine List.exists_cons_of_ne_nil fun hnil => ?_
    have hcount := hhdr.count
    rw [hnil, List.length_nil] at hcount
    have hpos := cfg.items_pos
    obtain hE | hP := hin
    · have := (h.filed ph).empty hE
      omega
    · have := ((h.filed ph).part hP).2
      omega
  have hitem : pi ∈ cfg.itemsFrom (pp.ph ph).ph_colored := hhdr.items pi (by rw [hlist]; simp)
  have hc := getItem_changed h hph hlist
  have hfresh : pi ∉ out := fun hmem => h.not_free hpages hmem (by rw [hlist]; simp)
  refine ⟨pi, getItem cfg pp ph itemlist, by simp only [Pool.takeItem, hph, hlist], hfresh, ?_⟩
  refine h.changed hpages hc ?_ (Multiset.nodup_cons.2 ⟨hfresh, h.out_nodup⟩) ?_
  · rw [getItem_nout, h.nout, Multiset.card_cons]
    omega
  · intro i hi
    rw [getItem_itemlist]
    obtain rfl | hi := Multiset.mem_cons.1 hi
    · have hnodup := hhdr.nodup
      rw [hlist] at hnodup
      exact .inr ⟨hitem, (List.nodup_cons.1 hnodup).1⟩
    · refine .inl ⟨hi, fun hfree => h.not_free hpages hi ?_⟩
      rw [hlist]
      exact List.mem_cons_of_mem pi hfree

end Take

section Put

variable {cfg : Config} {pp : State} {out outside : Multiset ℕ} {g ph pi : ℕ} {ticks : BitVec 32}

theorem Ok.prFindPagehead (h : Ok cfg pp out outside g) (hph : ph ∈ pp.pages)
    (hpi : pi ∈ cfg.itemsFrom (pp.ph ph).ph_colored) : prFindPagehead cfg pp pi = .ok ph := by
  have hrange := (h.page_header hph).range hpi
  have hmem : ph ∈ (pp.pages + outside : Multiset ℕ) := Multiset.mem_add.2 (.inl (Multiset.mem_coe.2 hph))
  by_cases hin : cfg.inPgHdr
  · rw [Pool.prFindPagehead, if_pos hin]
    obtain ⟨k, rfl⟩ := h.laid.aligned hin ph hmem
    have hdiv : pi / cfg.pr_pgsize = k := by
      refine Nat.div_eq_of_lt_le ?_ ?_
      · rw [Nat.mul_comm]
        exact hrange.1
      · rw [Nat.succ_mul, Nat.mul_comm]
        exact hrange.2
    have hmod := Nat.div_add_mod pi cfg.pr_pgsize
    rw [hdiv] at hmod
    congr 1
    omega
  · have hfind : nfind pp.pr_phtree pi = some ph := by
      rw [nfind, List.max?_eq_some_iff]
      refine ⟨?_, fun q hq => ?_⟩
      · rw [List.mem_filter]
        exact ⟨(h.phtree hin).mem_iff.2 hph, by simpa using hrange.1⟩
      · obtain ⟨hq, hle⟩ := List.mem_filter.1 hq
        have hle : q ≤ pi := by simpa using hle
        by_contra hlt
        have hq' : q ∈ (pp.pages + outside : Multiset ℕ) :=
          Multiset.mem_add.2 (.inl (Multiset.mem_coe.2 ((h.phtree hin).mem_iff.1 hq)))
        have hapart := h.laid.apart q hq' ph hmem (by omega)
        omega
    rw [Pool.prFindPagehead, if_neg hin, hfind]
    simp only
    rw [if_neg (by omega)]

theorem putItem_changed (h : Ok cfg pp out outside g) (hph : ph ∈ pp.pages)
    (hpi : pi ∈ cfg.itemsFrom (pp.ph ph).ph_colored) (hfree : pi ∉ (pp.ph ph).ph_itemlist) :
    Changed cfg pp (putItem cfg pp ph pi ticks) ph := by
  have hhdr := (h.page_header hph).put hpi hfree
  have hpos := (h.page_header hph).nmissing_pos hpi hfree
  obtain ⟨hEP, hEPF⟩ := h.one_list ph
  have hfiled := h.filed ph
  have hnodup := h.pages_nodup
  rw [State.pages, List.nodup_append', List.nodup_append'] at hnodup
  have hE : ph ∉ pp.pr_emptypages := fun hE => by
    have := hfiled.empty hE
    omega
  set nm := (pp.ph ph).ph_nmissing with hnm
  set free := pi :: (pp.ph ph).ph_itemlist
  set colored := (pp.ph ph).ph_colored with hcol
  set tick := (pp.ph ph).ph_tick
  have htick : Header.Ok cfg ph ⟨free, nm - 1, colored, ticks⟩ :=
    ⟨hhdr.colored_ge, hhdr.colored_le, hhdr.nodup, hhdr.items, hhdr.count⟩
  have hidle : pp.pr_nidle + 1 = BitVec.ofNat 64 (pp.pr_emptypages ++ [ph]).length := by
    rw [h.nidle, List.length_append, BitVec.ofNat_add]
    rfl
  by_cases hwas : nm = cfg.pr_itemsperpage
  · -- the page was full
    have hP : ph ∉ pp.pr_partpages := fun hP => by
      have := (hfiled.part hP).2
      omega
    have hF : ph ∈ pp.pr_fullpages := by
      simp only [State.pages, List.mem_append] at hph
      tauto
    have hnotF : ph ∉ pp.pr_fullpages.erase ph := hnodup.2.1.not_mem_erase
    by_cases hone : nm - 1 = 0
    · have hput : putItem cfg pp ph pi ticks = pp.refile ph ⟨free, nm - 1, colored, ticks⟩
          (pp.pr_emptypages ++ [ph]) pp.pr_partpages (pp.pr_fullpages.erase ph)
          (pp.pr_partpages.getLast?.or (pp.pr_emptypages ++ [ph]).getLast?) (pp.pr_nidle + 1)
          (pp.pr_nout - 1) := by
        simp only [putItem, ← hnm, if_pos hwas, if_pos hone, State.setItems, State.setTick,
          erase_append_self hP, Function.update_self, Function.update_idem]
        rfl
      rw [hput]
      refine changed_refile ?_ ?_ htick rfl
        ⟨fun _ => hone, fun hp => absurd hp hP, fun hp => absurd hp hnotF⟩ mem_of_curpage hidle
      · have hperm := (erase_append_perm (m := pp.pr_emptypages) hF).append_right pp.pr_partpages
        refine (List.perm_append_comm.trans ?_).trans (hperm.trans ?_)
        · exact List.Perm.of_eq (by simp only [List.append_assoc])
        · rw [List.append_assoc]
          exact List.perm_append_comm
      · intro q hq
        simp [hq, List.mem_erase_of_ne hq]
    · have hput : putItem cfg pp ph pi ticks = pp.refile ph ⟨free, nm - 1, colored, tick⟩
          pp.pr_emptypages (pp.pr_partpages ++ [ph]) (pp.pr_fullpages.erase ph) pp.pr_curpage pp.pr_nidle
          (pp.pr_nout - 1) := by
        simp only [putItem, ← hnm, if_pos hwas, if_neg hone, State.setItems]
        rfl
      rw [hput]
      refine changed_refile ?_ ?_ hhdr rfl
        ⟨fun hp => absurd hp hE, fun _ => ?_, fun hp => absurd hp hnotF⟩ ?_ h.nidle
      · rw [← List.append_assoc, List.append_assoc _ [ph]]
        exact (List.perm_cons_erase hF).symm.append_left _
      · intro q hq
        simp [hq, List.mem_erase_of_ne hq]
      · simp only
        omega
      · intro p hp
        obtain hp | hp := h.curpage p hp
        · exact .inl hp
        · exact .inr (List.mem_append_left _ hp)
  · -- the page was in use
    have hP : ph ∈ pp.pr_partpages := by
      simp only [State.pages, List.mem_append] at hph
      obtain (hp | hp) | hp := hph
      · exact absurd hp hE
      · exact hp
      · exact absurd (hfiled.full hp) hwas
    have hF := hEPF (.inr hP)
    have hnotP : ph ∉ pp.pr_partpages.erase ph := hnodup.1.2.1.not_mem_erase
    have hpart := hfiled.part hP
    by_cases hone : nm - 1 = 0
    · have hput : putItem cfg pp ph pi ticks = pp.refile ph ⟨free, nm - 1, colored, ticks⟩
          (pp.pr_emptypages ++ [ph]) (pp.pr_partpages.erase ph) pp.pr_fullpages
          ((pp.pr_partpages.erase ph).getLast?.or (pp.pr_emptypages ++ [ph]).getLast?) (pp.pr_nidle + 1)
          (pp.pr_nout - 1) := by
        simp only [putItem, ← hnm, if_neg hwas, if_pos hone, State.setItems, State.setTick,
          Function.update_self, Function.update_idem]
        rfl
      rw [hput]
      refine changed_refile ?_ ?_ htick rfl
        ⟨fun _ => hone, fun hp => absurd hp hnotP, fun hp => absurd hp hF⟩ mem_of_curpage hidle
      · rw [List.append_assoc pp.pr_emptypages [ph]]
        exact ((List.perm_cons_erase hP).symm.append_left _).append_right _
      · intro q hq
        simp [hq, List.mem_erase_of_ne hq]
    · have hput : putItem cfg pp ph pi ticks = pp.refile ph ⟨free, nm - 1, colored, tick⟩
          pp.pr_emptypages pp.pr_partpages pp.pr_fullpages pp.pr_curpage pp.pr_nidle (pp.pr_nout - 1) := by
        simp only [putItem, ← hnm, if_neg hwas, if_neg hone, State.setItems]
        rfl
      rw [hput]
      refine changed_refile (List.Perm.refl _) (fun q _ => ⟨Iff.rfl, Iff.rfl, Iff.rfl⟩) hhdr rfl
        ⟨fun hp => absurd hp hE, fun _ => ?_, fun hp => absurd hp hF⟩ h.curpage h.nidle
      simp only
      omega

@[simp] theorem putItem_nout (cfg : Config) (pp : State) (ph pi : ℕ) (ticks : BitVec 32) :
    (putItem cfg pp ph pi ticks).pr_nout = pp.pr_nout - 1 := by
  simp only [putItem]
  split <;> split <;> rfl

@[simp] theorem putItem_itemlist (cfg : Config) (pp : State) (ph pi : ℕ) (ticks : BitVec 32) :
    ((putItem cfg pp ph pi ticks).ph ph).ph_itemlist = pi :: (pp.ph ph).ph_itemlist := by
  simp only [putItem]
  split <;> split <;> simp [State.setItems, State.setTick, poolUpdateCurpage]

/-- Whoever has the item puts it back. -/
theorem Ok.putItem (h : Ok cfg pp out outside g) (hout : pi ∈ out) :
    ∃ ph, Pool.prFindPagehead cfg pp pi = .ok ph ∧
      Ok cfg (putItem cfg pp ph pi ticks) (out.erase pi) outside g := by
  obtain ⟨ph, hph, hitem, hfree⟩ := h.out_items pi hout
  refine ⟨ph, h.prFindPagehead hph hitem, ?_⟩
  have hcard : out.card = (out.erase pi).card + 1 := by
    rw [← Multiset.card_cons pi, Multiset.cons_erase hout]
  refine h.changed hph (putItem_changed h hph hitem hfree) ?_ (h.out_nodup.erase pi) ?_
  · have hnout := h.nout
    rw [putItem_nout, toNat_sub_one (by omega)]
    omega
  · intro i hi
    rw [h.out_nodup.mem_erase_iff] at hi
    refine .inl ⟨hi.2, ?_⟩
    rw [putItem_itemlist, List.mem_cons, not_or]
    exact ⟨hi.1, h.not_free hph hi.2⟩

end Put

section Pages

variable {cfg : Config} {pp : State} {out outside : Multiset ℕ} {g ph : ℕ}

/-- A get is counted before it has an item. -/
theorem Ok.count (h : Ok cfg pp out outside g) (hlimit : pp.pr_nout < cfg.pr_hardlimit) :
    Ok cfg { pp with pr_nout := pp.pr_nout + 1 } out outside (g + 1) where
  laid := h.laid
  header := h.header
  filed p := ⟨(h.filed p).empty, (h.filed p).part, (h.filed p).full⟩
  outside := h.outside
  curpage := h.curpage
  phtree := h.phtree
  npages := h.npages
  nitems := h.nitems
  nidle := h.nidle
  nout := by
    have hnout := h.nout
    have hlt := BitVec.lt_def.1 hlimit
    have hmax := cfg.pr_hardlimit.isLt
    simp only [BitVec.toNat_add]
    change (pp.pr_nout.toNat + 1) % 2 ^ 32 = _
    rw [Nat.mod_eq_of_lt (by omega)]
    omega
  out_nodup := h.out_nodup
  out_items := h.out_items

theorem Ok.uncount (h : Ok cfg pp out outside (g + 1)) :
    Ok cfg { pp with pr_nout := pp.pr_nout - 1 } out outside g where
  laid := h.laid
  header := h.header
  filed p := ⟨(h.filed p).empty, (h.filed p).part, (h.filed p).full⟩
  outside := h.outside
  curpage := h.curpage
  phtree := h.phtree
  npages := h.npages
  nitems := h.nitems
  nidle := h.nidle
  nout := by
    have hnout := h.nout
    rw [toNat_sub_one (by omega)]
    omega
  out_nodup := h.out_nodup
  out_items := h.out_items

theorem Ok.poolPInsert (h : Ok cfg pp out (ph ::ₘ outside) g) :
    Ok cfg (poolPInsert cfg pp ph) out outside g ∧ (poolPInsert cfg pp ph).pr_curpage ≠ none := by
  have hperm : (Pool.poolPInsert cfg pp ph).pages.Perm (ph :: pp.pages) := by
    simp only [State.pages, Pool.poolPInsert, List.append_assoc]
    exact List.perm_middle
  have hall : ((Pool.poolPInsert cfg pp ph).pages + outside : Multiset ℕ) = pp.pages + ph ::ₘ outside := by
    rw [Multiset.coe_eq_coe.2 hperm, ← Multiset.cons_coe, Multiset.cons_add, Multiset.add_cons]
  refine ⟨⟨?_, ?_, ?_, ?_, ?_, ?_, ?_, ?_, ?_, h.nout, h.out_nodup, ?_⟩, ?_⟩
  · rw [hall]
    exact h.laid
  · rw [hall]
    exact h.header
  · intro p
    refine ⟨fun hp => ?_, (h.filed p).part, (h.filed p).full⟩
    obtain hp | hp := List.mem_append.1 hp
    · exact (h.filed p).empty hp
    · rw [List.mem_singleton.1 hp]
      exact h.outside ph (Multiset.mem_cons_self ph outside)
  · exact fun p hp => h.outside p (Multiset.mem_cons_of_mem hp)
  · intro p hp
    simp only [Pool.poolPInsert] at hp ⊢
    split at hp
    · cases hp
      exact .inl (by simp)
    · obtain hp | hp := h.curpage p hp
      · exact .inl (List.mem_append_left _ hp)
      · exact .inr hp
  · intro hin
    simp only [Pool.poolPInsert, if_neg hin]
    exact ((h.phtree hin).cons ph).trans hperm.symm
  · rw [hperm.length_eq, List.length_cons, BitVec.ofNat_add, ← h.npages]
    rfl
  · simp only [Pool.poolPInsert]
    rw [h.nitems, add_mul, one_mul]
  · simp only [Pool.poolPInsert, List.length_append]
    rw [h.nidle, BitVec.ofNat_add]
    rfl
  · intro i hi
    obtain ⟨p, hp, hitem⟩ := h.out_items i hi
    exact ⟨p, hperm.mem_iff.2 (List.mem_cons_of_mem ph hp), hitem⟩
  · simp only [Pool.poolPInsert]
    split
    · simp
    · assumption

theorem Ok.poolPRemove (h : Ok cfg pp out outside g) (hph : ph ∈ pp.pr_emptypages) :
    Ok cfg (poolPRemove cfg pp ph) out (ph ::ₘ outside) g := by
  have hperm : (ph :: (Pool.poolPRemove cfg pp ph).pages).Perm pp.pages :=
    ((List.perm_cons_erase hph).symm.append_right _).append_right _
  have hall : ((Pool.poolPRemove cfg pp ph).pages + ph ::ₘ outside : Multiset ℕ) = pp.pages + outside := by
    rw [← Multiset.coe_eq_coe.2 hperm, ← Multiset.cons_coe, Multiset.cons_add, Multiset.add_cons]
  have hin : ph ∈ pp.pages := hperm.mem_iff.1 List.mem_cons_self
  have hpos := h.page_header hin
  have hzero := (h.filed ph).empty hph
  refine ⟨?_, ?_, ?_, ?_, ?_, ?_, ?_, ?_, ?_, h.nout, h.out_nodup, ?_⟩
  · rw [hall]
    exact h.laid
  · rw [hall]
    exact h.header
  · exact fun p => ⟨fun hp => (h.filed p).empty (List.mem_of_mem_erase hp), (h.filed p).part, (h.filed p).full⟩
  · intro p hp
    obtain rfl | hp := Multiset.mem_cons.1 hp
    · exact hzero
    · exact h.outside p hp
  · exact mem_of_curpage
  · intro hnot
    simp only [Pool.poolPRemove, poolUpdateCurpage, if_neg hnot]
    have herase := ((h.phtree hnot).trans hperm.symm).erase ph
    rwa [List.erase_cons_head] at herase
  · have hlen : pp.pages.length = (Pool.poolPRemove cfg pp ph).pages.length + 1 := hperm.length_eq.symm
    have hnp : (Pool.poolPRemove cfg pp ph).pr_npages = pp.pr_npages - 1 := rfl
    rw [hnp, h.npages, hlen, BitVec.ofNat_add]
    exact add_sub_cancel_right _ _
  · have hnp : (Pool.poolPRemove cfg pp ph).pr_npages = pp.pr_npages - 1 := rfl
    have hni : (Pool.poolPRemove cfg pp ph).pr_nitems = pp.pr_nitems - BitVec.ofNat 32 cfg.pr_itemsperpage := rfl
    rw [hnp, hni, h.nitems, sub_mul, one_mul]
  · have hidle : (Pool.poolPRemove cfg pp ph).pr_nidle = pp.pr_nidle - 1 := rfl
    rw [hidle, h.nidle]
    exact ofNat_length_erase 64 hph
  · -- none of its items is handed out
    intro i hi
    obtain ⟨p, hp, hitem, hfree⟩ := h.out_items i hi
    refine ⟨p, ?_, hitem, hfree⟩
    obtain rfl | hp := List.mem_cons.1 (hperm.mem_iff.2 hp)
    · have := hpos.nmissing_pos hitem hfree
      omega
    · exact hp

/-- What the page allocator gives: a page that no one uses. -/
structure Fresh (cfg : Config) (all : Multiset ℕ) (addr : ℕ) : Prop where
  not_mem : addr ∉ all
  apart : ∀ p ∈ all, p + cfg.pr_pgsize ≤ addr ∨ addr + cfg.pr_pgsize ≤ p
  aligned : cfg.inPgHdr → cfg.pr_pgsize ∣ addr

theorem Laid.cons {all : Multiset ℕ} {addr : ℕ} (h : Laid cfg all) (hf : Fresh cfg all addr) :
    Laid cfg (addr ::ₘ all) := by
  refine ⟨Multiset.nodup_cons.2 ⟨hf.not_mem, h.nodup⟩, ?_, ?_⟩
  · intro p hp q hq hne
    obtain rfl | hp' := Multiset.mem_cons.1 hp
    · obtain rfl | hq' := Multiset.mem_cons.1 hq
      · exact absurd rfl hne
      · exact (hf.apart q hq').symm
    · obtain rfl | hq' := Multiset.mem_cons.1 hq
      · exact hf.apart p hp'
      · exact h.apart p hp' q hq' hne
  · intro hin p hp
    obtain rfl | hp := Multiset.mem_cons.1 hp
    · exact hf.aligned hin
    · exact h.aligned hin p hp

theorem Ok.poolPAlloc {addr : ℕ} (h : Ok cfg pp out outside g)
    (hf : Fresh cfg (pp.pages + outside) addr) : Ok cfg (poolPAlloc cfg pp addr) out (addr ::ₘ outside) g := by
  have hall : ((Pool.poolPAlloc cfg pp addr).pages + addr ::ₘ outside : Multiset ℕ) =
      addr ::ₘ (pp.pages + outside) := Multiset.add_cons _ _ _
  have hnew := poolPAlloc_header cfg pp addr
  have hold {p : ℕ} (hp : p ∈ (pp.pages + outside : Multiset ℕ)) :
      (Pool.poolPAlloc cfg pp addr).ph p = pp.ph p := by
    have hne : p ≠ addr := fun heq => hf.not_mem (heq ▸ hp)
    exact Function.update_of_ne hne _ _
  have hpages {p : ℕ} (hp : p ∈ pp.pages) : (Pool.poolPAlloc cfg pp addr).ph p = pp.ph p :=
    hold (Multiset.mem_add.2 (.inl (Multiset.mem_coe.2 hp)))
  refine ⟨?_, ?_, ?_, ?_, h.curpage, h.phtree, h.npages, h.nitems, h.nidle, h.nout, h.out_nodup, ?_⟩
  · rw [hall]
    exact h.laid.cons hf
  · intro p hp
    rw [hall] at hp
    obtain rfl | hp := Multiset.mem_cons.1 hp
    · exact hnew.1
    · rw [hold hp]
      exact h.header p hp
  · intro p
    have hfiled := h.filed p
    refine ⟨fun hp => ?_, fun hp => ?_, fun hp => ?_⟩
    · rw [hpages (by simp only [State.pages, List.mem_append]; exact .inl (.inl hp))]
      exact hfiled.empty hp
    · rw [hpages (by simp only [State.pages, List.mem_append]; exact .inl (.inr hp))]
      exact hfiled.part hp
    · rw [hpages (by simp only [State.pages, List.mem_append]; exact .inr hp)]
      exact hfiled.full hp
  · intro p hp
    obtain rfl | hp := Multiset.mem_cons.1 hp
    · exact hnew.2
    · rw [hold (Multiset.mem_add.2 (.inr hp))]
      exact h.outside p hp
  · intro i hi
    obtain ⟨p, hp, hitem⟩ := h.out_items i hi
    refine ⟨p, hp, ?_⟩
    rw [hpages hp]
    exact hitem

/-- A page that left the pool is freed. -/
theorem Ok.poolPFree (h : Ok cfg pp out (ph ::ₘ outside) g) :
    poolPFree pp ph = .ok pp ∧ Ok cfg pp out outside g := by
  have hle : (pp.pages + outside : Multiset ℕ) ≤ pp.pages + ph ::ₘ outside := by
    rw [Multiset.add_cons]
    exact Multiset.le_cons_self _ ph
  refine ⟨if_pos (h.outside ph (Multiset.mem_cons_self ph outside)), ?_⟩
  refine ⟨⟨?_, ?_, ?_⟩, ?_, h.filed, ?_, h.curpage, h.phtree, h.npages, h.nitems, h.nidle, h.nout, h.out_nodup,
    h.out_items⟩
  · exact Multiset.nodup_of_le hle h.laid.nodup
  · exact fun p hp q hq => h.laid.apart p (Multiset.mem_of_le hle hp) q (Multiset.mem_of_le hle hq)
  · exact fun hin p hp => h.laid.aligned hin p (Multiset.mem_of_le hle hp)
  · exact fun p hp => h.header p (Multiset.mem_of_le hle hp)
  · exact fun p hp => h.outside p (Multiset.mem_cons_of_mem hp)

/-- `pool_put` gives the item back, and takes out at most one page. -/
theorem Ok.poolPut {v : ℕ} {ticks : BitVec 32} (h : Ok cfg pp out outside g) (hv : v ∈ out) :
    ∃ pp' pl, poolPut cfg pp v ticks = .ok (pp', pl) ∧ Ok cfg pp' (out.erase v) (pl + outside) g := by
  obtain ⟨page, hfind, hput⟩ := @Ok.putItem cfg pp out outside g v ticks h hv
  rw [Pool.poolPut, hfind]
  simp only [Except.map]
  cases hfree : pageToFree cfg (Pool.putItem cfg pp page v ticks) ticks with
  | none => exact ⟨_, _, rfl, by simpa using hput⟩
  | some ph =>
    refine ⟨_, _, rfl, ?_⟩
    have hmem : ph ∈ (Pool.putItem cfg pp page v ticks).pr_emptypages := by
      rw [pageToFree] at hfree
      split at hfree
      · exact List.mem_of_mem_head? (Option.eq_some_of_filter_eq_some hfree)
      · cases hfree
    rw [Multiset.coe_singleton, Multiset.singleton_add]
    exact hput.poolPRemove hmem

theorem Ok.poolReclaim {todo pl : List ℕ} (h : Ok cfg pp out (pl + outside) g)
    (htodo : ∀ p ∈ todo, p ∈ pp.pr_emptypages) (hnodup : todo.Nodup) :
    Ok cfg (poolReclaim cfg todo pp pl).1 out ((poolReclaim cfg todo pp pl).2 + outside) g := by
  induction todo generalizing pp pl with
  | nil => exact h
  | cons ph todo ih =>
    rw [Pool.poolReclaim]
    split
    · exact h
    · split
      · exact h
      · obtain ⟨hph, hnodup⟩ := List.nodup_cons.1 hnodup
        have hrem := h.poolPRemove (htodo ph (by simp))
        refine ih ?_ ?_ hnodup
        · have hpl : ((pl ++ [ph] : List ℕ) + outside : Multiset ℕ) = ph ::ₘ (pl + outside) := by
            rw [← Multiset.coe_add, Multiset.coe_singleton, add_assoc, Multiset.singleton_add,
              Multiset.add_cons]
          rw [hpl]
          exact hrem
        · intro p hp
          have hne : p ≠ ph := fun heq => hph (heq ▸ hp)
          exact (List.mem_erase_of_ne hne).2 (htodo p (by simp [hp]))

end Pages

end OpenbsdKernel.Pool
