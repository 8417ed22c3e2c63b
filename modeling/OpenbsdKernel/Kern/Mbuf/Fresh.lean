import OpenbsdKernel.Kern.Mbuf.Copydata

/-!
# A new chain beside an old one

A function that builds a new chain from an old one allocates, writes to what it allocated, and frees
one of the two chains at the end. What it allocated is told from what existed before it started: the
mbufs of the new chain and their clusters are its own, so that freeing one chain leaves the bytes of
the other.
-/
namespace OpenbsdKernel.UipcMbuf

open Store

/-- Since `mem₀` there were allocations and writes to what they gave. -/
structure Grown (mem₀ mem : Mem) : Prop where
  keeps : mem₀.Keeps mem
  refs : ∀ x < mem₀.nextcl, mem.refs x = mem₀.refs x
  plenty : mem₀.Plenty → mem.Plenty

/-- An mbuf that was made since `mem₀`, and is alone on its cluster. -/
structure Made (mem₀ mem : Mem) (n : Mbuf) : Prop where
  old : n.Old mem
  addr : mem₀.next ≤ n.addr
  ext : ∀ e, n.m_ext = some e → mem₀.nextcl ≤ e.ext_buf ∧ e.extwr = true ∧ mem.refs e.ext_buf = 1

/-- A chain of such mbufs. -/
structure Own (mem₀ mem : Mem) (ns : List Mbuf) : Prop where
  new : ∀ n ∈ ns, Made mem₀ mem n
  addr : (ns.map Mbuf.addr).Nodup
  buf : (ns.map Mbuf.buf).Nodup

/-- What `ChainWf` says of a chain of any length. -/
structure ChainSound (mem : Mem) (c : List Mbuf) : Prop where
  storage : ∀ m ∈ c, m.InStorage
  old : ∀ m ∈ c, m.Old mem
  addr : (c.map Mbuf.addr).Nodup
  refs : ∀ x, users x c ≤ mem.refs x
  zeroize : ZeroizeOwned mem c

theorem ChainWf.sound {mem : Mem} {c : List Mbuf} (h : ChainWf mem c) : ChainSound mem c :=
  ⟨h.storage, h.old, h.addr, h.refs, h.zeroize⟩

/-- Which storage an mbuf has. -/
def Mbuf.place (m : Mbuf) : ℕ × Option Ext := (m.addr, m.m_ext)

def bufAt (p : ℕ × Option Ext) : Buf :=
  match p.2 with
  | some e => .ext e.ext_buf
  | none => .dat p.1

theorem Mbuf.buf_place (m : Mbuf) : m.buf = bufAt m.place := rfl

section Grown

variable {mem₀ mem mem' : Mem}

theorem Grown.refl (mem : Mem) : Grown mem mem := ⟨.refl mem, fun _ _ => rfl, id⟩

theorem Grown.trans (h : Grown mem₀ mem) (h' : Grown mem mem') : Grown mem₀ mem' where
  keeps := h.keeps.trans h'.keeps
  refs x hx := (h'.refs x (hx.trans_le h.keeps.nextcl)).trans (h.refs x hx)
  plenty := h'.plenty ∘ h.plenty

theorem Grown.copyin (h : Grown mem₀ mem) {b : Buf} (hb : ¬mem₀.Old b) (a : ℕ) (vs : List UInt8) :
    Grown mem₀ (mem.copyin b a vs) :=
  ⟨h.keeps.copyin hb a vs, h.refs, h.plenty⟩

theorem grown_advance (mem : Mem) : Grown mem mem.advance :=
  ⟨keeps_advance mem, fun _ _ => rfl, fun h i => h (i + 1)⟩

theorem grown_next (mem : Mem) : Grown mem { mem.advance with next := mem.next + 1 } :=
  ⟨keeps_next mem, fun _ _ => rfl, fun h i => h (i + 1)⟩

theorem grown_nextcl (mem : Mem) :
    Grown mem { mem.advance with
      nextcl := mem.nextcl + 1, refs := Function.update mem.refs mem.nextcl 1 } :=
  ⟨keeps_nextcl mem _, fun _ hx => Function.update_of_ne hx.ne _ _, fun h i => h (i + 1)⟩

theorem grown_withGrants {g : ℕ → Option ℕ} (h : mem.Plenty → (mem.withGrants g).Plenty) :
    Grown mem (mem.withGrants g) :=
  ⟨mem.keeps_withGrants g, fun _ _ => rfl, h⟩

end Grown

section Own

variable {mem₀ mem mem' : Mem} {n n' : Mbuf} {ns : List Mbuf}

theorem Made.notOld (h : Made mem₀ mem n) : ¬mem₀.Old n.buf := by
  rw [Mbuf.buf]
  cases hext : n.m_ext with
  | none => exact not_lt.2 h.addr
  | some e => exact not_lt.2 (h.ext e hext).1

theorem Made.grown (h : Made mem₀ mem n) (hg : Grown mem mem') : Made mem₀ mem' n where
  old := hg.keeps.old h.old
  addr := h.addr
  ext e he := by
    obtain ⟨hnew, hwr, hone⟩ := h.ext e he
    exact ⟨hnew, hwr, (hg.refs _ (h.old.2 e he)).trans hone⟩

theorem Made.of_grown (h : Made mem mem' n) (hg : Grown mem₀ mem) : Made mem₀ mem' n where
  old := h.old
  addr := hg.keeps.next.trans h.addr
  ext e he := by
    obtain ⟨hnew, hrest⟩ := h.ext e he
    exact ⟨hg.keeps.nextcl.trans hnew, hrest⟩

theorem Made.congr (h : Made mem₀ mem n) (haddr : n'.addr = n.addr) (hext : n'.m_ext = n.m_ext) :
    Made mem₀ mem n' where
  old := ⟨haddr.trans_lt h.old.1, fun e he => h.old.2 e (hext ▸ he)⟩
  addr := h.addr.trans_eq haddr.symm
  ext e he := h.ext e (hext ▸ he)

theorem Made.copyin (h : Made mem₀ mem n) (b : Buf) (a : ℕ) (vs : List UInt8) : Made mem₀ (mem.copyin b a vs) n :=
  ⟨h.old, h.addr, h.ext⟩

theorem Made.readonly (h : Made mem₀ mem n) : mem.M_READONLY n = false :=
  M_READONLY_eq_false.2 fun e he => (h.ext e he).2

theorem own_nil (mem₀ mem : Mem) : Own mem₀ mem [] := ⟨by simp, by simp, by simp⟩

theorem own_singleton (h : Made mem₀ mem n) : Own mem₀ mem [n] := ⟨by simpa using h, by simp, by simp⟩

theorem Own.grown (h : Own mem₀ mem ns) (hg : Grown mem mem') : Own mem₀ mem' ns :=
  ⟨fun n hn => (h.new n hn).grown hg, h.addr, h.buf⟩

theorem Own.copyin (h : Own mem₀ mem ns) (b : Buf) (a : ℕ) (vs : List UInt8) : Own mem₀ (mem.copyin b a vs) ns :=
  ⟨fun n hn => (h.new n hn).copyin b a vs, h.addr, h.buf⟩

/-- One more mbuf, which was made later. -/
theorem Own.concat (h : Own mem₀ mem ns) (h₀ : Grown mem₀ mem) (hg : Grown mem mem') (hn : Made mem mem' n) :
    Own mem₀ mem' (ns ++ [n]) where
  new k hk := by
    rcases List.mem_append.1 hk with hk | hk
    · exact (h.new k hk).grown hg
    · rw [List.mem_singleton.1 hk]
      exact hn.of_grown h₀
  addr := by
    rw [List.map_append, List.map_singleton, List.nodup_append]
    refine ⟨h.addr, by simp, ?_⟩
    rintro a ha b hb rfl
    obtain ⟨k, hk, rfl⟩ := List.mem_map.1 ha
    have hlt := (h.new k hk).old.1
    rw [List.mem_singleton.1 hb] at hlt
    exact absurd hn.addr (not_le.2 hlt)
  buf := by
    rw [List.map_append, List.map_singleton, List.nodup_append]
    refine ⟨h.buf, by simp, ?_⟩
    rintro b hb b' hb' rfl
    obtain ⟨k, hk, rfl⟩ := List.mem_map.1 hb
    have hold := (h.new k hk).old.buf
    rw [List.mem_singleton.1 hb'] at hold
    exact hn.notOld hold

/-- Neither the length nor the header of an mbuf matters. -/
theorem Own.congr {ns' : List Mbuf} (h : Own mem₀ mem ns) (hplace : ns'.map Mbuf.place = ns.map Mbuf.place) :
    Own mem₀ mem ns' where
  new n' hn' := by
    have hmem := List.mem_map_of_mem (f := Mbuf.place) hn'
    rw [hplace] at hmem
    obtain ⟨n, hn, heq⟩ := List.mem_map.1 hmem
    obtain ⟨haddr, hext⟩ := Prod.mk.inj heq
    exact (h.new n hn).congr haddr.symm hext.symm
  addr := by
    have hmap (c : List Mbuf) : c.map Mbuf.addr = (c.map Mbuf.place).map Prod.fst := by simp [Mbuf.place]
    rw [hmap, hplace, ← hmap]
    exact h.addr
  buf := by
    have hmap (c : List Mbuf) : c.map Mbuf.buf = (c.map Mbuf.place).map bufAt := by
      rw [List.map_map]
      exact List.map_congr_left fun n _ => n.buf_place
    rw [hmap, hplace, ← hmap]
    exact h.buf

theorem Own.notOld (h : Own mem₀ mem ns) (hn : n ∈ ns) : ¬mem₀.Old n.buf := (h.new n hn).notOld

/-- The other mbufs of the chain are on other storage. -/
theorem Own.ne_last (h : Own mem₀ mem (ns ++ [n])) : ∀ k ∈ ns, k.buf ≠ n.buf := by
  intro k hk
  have hnodup := h.buf
  rw [List.map_append, List.nodup_append] at hnodup
  exact hnodup.2.2 _ (List.mem_map_of_mem hk) _ (by simp)

theorem Own.users_le (h : Own mem₀ mem ns) (x : ℕ) : users x ns ≤ mem.refs x := by
  by_cases huse : ∃ n ∈ ns, n.buf = .ext x
  · obtain ⟨n, hn, hbuf⟩ := huse
    obtain ⟨e, hext, rfl⟩ := buf_eq_ext.1 hbuf
    rw [((h.new n hn).ext e hext).2.2]
    have hcount := List.nodup_iff_count_le_one.1 h.buf (.ext e.ext_buf)
    rw [List.count_eq_countP, List.countP_map] at hcount
    refine (List.countP_mono_left fun m _ hm => ?_).trans hcount
    simpa using hm
  · rw [users_eq_zero fun n hn hbuf => huse ⟨n, hn, hbuf⟩]
    exact Nat.zero_le _

theorem Own.zeroizeOwned (h : Own mem₀ mem ns) : ZeroizeOwned mem ns :=
  fun n hn => (h.new n (mem_of_mem_wiped hn)).readonly

theorem Own.sound (h : Own mem₀ mem ns) (hstorage : ∀ n ∈ ns, n.InStorage) : ChainSound mem ns :=
  ⟨hstorage, fun n hn => (h.new n hn).old, h.addr, h.users_le, h.zeroizeOwned⟩

/-- Writes to the storage of the last mbuf leave the bytes of the others. -/
theorem Own.bytes_copyin (h : Own mem₀ mem (ns ++ [n])) (a : ℕ) (vs : List UInt8) :
    (mem.copyin n.buf a vs).bytes ns = mem.bytes ns := by
  refine read_congr fun l hl => ?_
  obtain ⟨k, hk, hl⟩ := List.mem_flatMap.1 hl
  rw [Mbuf.locs, mem_region] at hl
  exact mem.store.write_of_ne a vs l.2 (by rw [hl.1]; exact h.ne_last k hk)

/-- Either chain can be freed. -/
theorem Own.freem (h : Own mem₀ mem ns) : ∃ mem', m_freem mem ns = some mem' ∧ Released mem ns mem' :=
  m_freem_spec h.zeroizeOwned h.users_le

theorem ChainSound.zeroizeOwned {c : List Mbuf} (hc : ChainSound mem₀ c) (hg : Grown mem₀ mem) : ZeroizeOwned mem c := by
  intro m hm
  rw [M_READONLY_eq_false]
  intro e he
  have hown := M_READONLY_eq_false.1 (hc.zeroize m hm) e he
  exact ⟨hown.1, (hg.refs _ ((hc.old m (mem_of_mem_wiped hm)).2 e he)).trans hown.2⟩

theorem ChainSound.users_le {c : List Mbuf} (hc : ChainSound mem₀ c) (hg : Grown mem₀ mem) (x : ℕ) :
    users x c ≤ mem.refs x := by
  by_cases hx : x < mem₀.nextcl
  · rw [hg.refs x hx]
    exact hc.refs x
  · rw [users_eq_zero_of_old hc.old (not_lt.1 hx)]
    exact Nat.zero_le _

/-- When the old chain is freed the new one stays as it is. -/
theorem ChainSound.freem {c : List Mbuf} (hc : ChainSound mem₀ c) (hg : Grown mem₀ mem) (h : Own mem₀ mem ns) :
    ∃ mem', m_freem mem c = some mem' ∧ Own mem₀ mem' ns ∧ mem'.bytes ns = mem.bytes ns ∧
      mem'.grants = mem.grants := by
  obtain ⟨mem', hfree, hr⟩ := m_freem_spec (hc.zeroizeOwned hg) (hc.users_le hg)
  refine ⟨mem', hfree, ⟨fun n hn => ?_, h.addr, h.buf⟩, ?_, hr.grants⟩
  · obtain ⟨hold, haddr, hext⟩ := h.new n hn
    refine ⟨⟨hr.next ▸ hold.1, fun e he => hr.nextcl ▸ hold.2 e he⟩, haddr, fun e he => ?_⟩
    obtain ⟨hnew, hwr, hone⟩ := hext e he
    refine ⟨hnew, hwr, ?_⟩
    rw [hr.refs, users_eq_zero_of_old hc.old hnew, hone]
  · refine read_congr fun l hl => ?_
    obtain ⟨n, hn, hl⟩ := List.mem_flatMap.1 hl
    rw [Mbuf.locs, mem_region] at hl
    refine hr.store l.1 (fun m hm hbuf => h.notOld hn ?_) l.2
    rw [← hl.1, ← hbuf]
    exact (hc.old m (mem_of_mem_wiped hm)).buf

end Own

end OpenbsdKernel.UipcMbuf
