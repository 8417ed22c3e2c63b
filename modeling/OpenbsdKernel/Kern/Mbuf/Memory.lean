import Mathlib.Data.List.TakeWhile
import OpenbsdKernel.Kern.Mbuf.Basic

/-!
# What allocation and release do to memory

Storage that exists is told from storage handed out later by the two counters of the
memory. An operation that only allocates, and only writes what it allocated, keeps
every existing byte. A chain is well formed when its data ranges lie inside storage
that exists, its mbufs are different and each is counted by the buffer it refers to;
no buffer to be wiped when its mbuf is freed is shared, which `m_zero` insists on.
-/
namespace OpenbsdKernel.UipcMbuf

open Store

/-- The storage exists. -/
def Mem.Old (mem : Mem) : Buf → Prop
  | .dat a => a < mem.next
  | .ext x => x < mem.nextcl

/-- The mbuf exists, and so does the buffer it refers to. -/
def Mbuf.Old (mem : Mem) (m : Mbuf) : Prop :=
  m.addr < mem.next ∧ ∀ e, m.m_ext = some e → e.ext_buf < mem.nextcl

theorem Mbuf.Old.buf {mem : Mem} {m : Mbuf} (h : m.Old mem) : mem.Old m.buf := by
  unfold Mbuf.buf
  cases he : m.m_ext with
  | none => exact h.1
  | some e => exact h.2 e he

theorem Mbuf.Old.locs {mem : Mem} {m : Mbuf} (h : m.Old mem) : ∀ l ∈ m.locs, mem.Old l.1 := by
  intro l hl
  rw [(mem_region.mp hl).1]
  exact h.buf

/-- Existing storage keeps its bytes; more storage may exist afterwards. -/
structure Mem.Keeps (mem mem' : Mem) : Prop where
  next : mem.next ≤ mem'.next
  nextcl : mem.nextcl ≤ mem'.nextcl
  store : ∀ b i, mem.Old b → mem'.store b i = mem.store b i

namespace Mem.Keeps

variable {mem mem₁ mem₂ : Mem}

theorem refl (mem : Mem) : mem.Keeps mem := ⟨le_rfl, le_rfl, fun _ _ _ => rfl⟩

theorem mono (h : mem.Keeps mem₁) {b : Buf} (hb : mem.Old b) : mem₁.Old b := by
  cases b with
  | dat a => exact lt_of_lt_of_le hb h.next
  | ext x => exact lt_of_lt_of_le hb h.nextcl

theorem old (h : mem.Keeps mem₁) {m : Mbuf} (hm : m.Old mem) : m.Old mem₁ :=
  ⟨lt_of_lt_of_le hm.1 h.next, fun e he => lt_of_lt_of_le (hm.2 e he) h.nextcl⟩

theorem trans (h : mem.Keeps mem₁) (h' : mem₁.Keeps mem₂) : mem.Keeps mem₂ where
  next := h.next.trans h'.next
  nextcl := h.nextcl.trans h'.nextcl
  store b i hb := (h'.store b i (h.mono hb)).trans (h.store b i hb)

theorem copyin (h : mem.Keeps mem₁) {b : Buf} (hb : ¬ mem.Old b) (a : ℕ) (vs : List UInt8) :
    mem.Keeps (mem₁.copyin b a vs) where
  next := h.next
  nextcl := h.nextcl
  store b' i hb' :=
    (mem₁.store.write_of_ne a vs i fun he : b' = b => hb (he ▸ hb')).trans (h.store b' i hb')

theorem read (h : mem.Keeps mem₁) {ls : List (Buf × ℕ)} (hls : ∀ l ∈ ls, mem.Old l.1) :
    mem₁.store.read ls = mem.store.read ls :=
  read_congr fun l hl => h.store l.1 l.2 (hls l hl)

theorem bytes (h : mem.Keeps mem₁) {c : List Mbuf} (hc : ∀ m ∈ c, m.Old mem) :
    mem₁.bytes c = mem.bytes c := by
  refine h.read fun l hl => ?_
  obtain ⟨m, hm, hl⟩ := List.mem_flatMap.mp hl
  exact (hc m hm).locs l hl

end Mem.Keeps

theorem read_copyin_self (mem : Mem) (b : Buf) (a n : ℕ) (vs : List UInt8) (h : vs.length = n) :
    (mem.copyin b a vs).store.read (region b a n) = vs := by
  subst h
  exact read_write_self _ _ _ _

/-- Other outcomes of the allocations to come. -/
def Mem.withGrants (mem : Mem) (g : ℕ → Option ℕ) : Mem := { mem with grants := g }

theorem Mem.keeps_withGrants (mem : Mem) (g : ℕ → Option ℕ) : mem.Keeps (mem.withGrants g) :=
  ⟨le_rfl, le_rfl, fun _ _ _ => rfl⟩

section Allocation

variable {mem mem' : Mem} {n : Mbuf}

/-- `m_get` fails without effect or hands out the next address. -/
theorem m_get_cases (mem : Mem) :
    (mem.grants 0 = none ∧ m_get mem = (none, mem.advance)) ∨
      ∃ junk, mem.grants 0 = some junk ∧
        m_get mem = (some (mem.plain junk), { mem.advance with next := mem.next + 1 }) := by
  unfold m_get
  cases h : mem.grants 0 with
  | none => exact .inl ⟨rfl, rfl⟩
  | some junk => exact .inr ⟨junk, rfl, rfl⟩

theorem m_gethdr_cases (mem : Mem) :
    (mem.grants 0 = none ∧ m_gethdr mem = (none, mem.advance)) ∨
      ∃ junk, mem.grants 0 = some junk ∧
        m_gethdr mem =
          (some (m_inithdr (mem.plain junk)), { mem.advance with next := mem.next + 1 }) := by
  unfold m_gethdr
  cases h : mem.grants 0 with
  | none => exact .inl ⟨rfl, rfl⟩
  | some junk => exact .inr ⟨junk, rfl, rfl⟩

theorem keeps_advance (mem : Mem) : mem.Keeps mem.advance :=
  ⟨le_rfl, le_rfl, fun _ _ _ => rfl⟩

theorem keeps_next (mem : Mem) : mem.Keeps { mem.advance with next := mem.next + 1 } :=
  ⟨Nat.le_succ _, le_rfl, fun _ _ _ => rfl⟩

theorem m_clpool_isSome {pktlen : ℕ} : (m_clpool pktlen).isSome ↔ pktlen ≤ MAXMCLBYTES := by
  unfold m_clpool
  rw [List.find?_isSome]
  simp only [decide_eq_true_eq, mclsizes, List.mem_cons, List.not_mem_nil, or_false,
    exists_eq_or_imp, exists_eq_left, MCLBYTES, MAXMCLBYTES]
  omega

/-- `m_clget` leaves the mbuf alone or gives it the next external buffer. -/
theorem m_clget_cases (mem : Mem) (m : Mbuf) {pktlen size : ℕ}
    (h : m_clpool pktlen = some size) :
    (mem.grants 0 = none ∧ m_clget mem m pktlen = some (m, mem.advance)) ∨
      ∃ junk, mem.grants 0 = some junk ∧
        m_clget mem m pktlen =
          some ({ m with m_data := 0, m_ext := some ⟨mem.nextcl, size, true⟩ },
            { mem.advance with
              nextcl := mem.nextcl + 1, refs := Function.update mem.refs mem.nextcl 1 }) := by
  unfold m_clget
  rw [h]
  cases hg : mem.grants 0 with
  | none => exact .inl ⟨rfl, rfl⟩
  | some junk => exact .inr ⟨junk, rfl, rfl⟩

theorem keeps_nextcl (mem : Mem) (refs : ℕ → ℕ) :
    mem.Keeps { mem.advance with nextcl := mem.nextcl + 1, refs := refs } :=
  ⟨le_rfl, Nat.le_succ _, fun _ _ _ => rfl⟩

/-- Every allocation to come succeeds. -/
def Mem.Plenty (mem : Mem) : Prop := ∀ i, mem.grants i ≠ none

theorem m_tag_copy_chain_cases (ts : List ℕ) (mem : Mem) :
    ∃ g, (mem.Plenty → (mem.withGrants g).Plenty) ∧
      (m_tag_copy_chain mem ts = (none, mem.withGrants g) ∧ ¬ mem.Plenty ∨
        m_tag_copy_chain mem ts = (some ts, mem.withGrants g)) := by
  induction ts generalizing mem with
  | nil => exact ⟨mem.grants, id, .inr rfl⟩
  | cons t ts ih =>
    unfold m_tag_copy_chain
    cases hg : mem.grants 0 with
    | none => exact ⟨_, fun h => absurd hg (h 0), .inl ⟨rfl, fun h => h 0 hg⟩⟩
    | some junk =>
      have hadv (h : mem.Plenty) : mem.advance.Plenty := fun i => h (i + 1)
      obtain ⟨g, hp, ⟨h, hno⟩ | h⟩ := ih mem.advance
      · exact ⟨g, fun hm => hp (hadv hm), .inl ⟨by simp only [h]; rfl, fun hm => hno (hadv hm)⟩⟩
      · exact ⟨g, fun hm => hp (hadv hm), .inr (by simp only [h]; rfl)⟩

/-- The copied header, with the data at the start of what a header leaves. -/
def Mbuf.headed (t f : Mbuf) (ph : Pkthdr) : Mbuf :=
  { t with
    m_pkthdr := some ph, zeroize := f.zeroize,
    m_data := if t.m_ext = none then PKTDAT else t.m_data }

/-- `m_dup_pkthdr` copies the header or fails for want of a tag. -/
theorem m_dup_pkthdr_cases (mem : Mem) (t : Mbuf) {f : Mbuf} {ph : Pkthdr}
    (h : f.m_pkthdr = some ph) :
    ∃ g, (mem.Plenty → (mem.withGrants g).Plenty) ∧
      (m_dup_pkthdr mem t f = some (true,
          { t with m_pkthdr := some { ph with tags := [] }, zeroize := f.zeroize },
          mem.withGrants g) ∧ ¬ mem.Plenty ∨
        m_dup_pkthdr mem t f = some (false, t.headed f ph, mem.withGrants g)) := by
  unfold m_dup_pkthdr
  rw [h]
  obtain ⟨g, hp, ⟨ht, hno⟩ | ht⟩ := m_tag_copy_chain_cases ph.tags mem
  · exact ⟨g, hp, .inl ⟨by simp only [ht], hno⟩⟩
  · exact ⟨g, hp, .inr (by simp only [ht]; rfl)⟩

end Allocation

/-- How many mbufs of the chain refer to external buffer `x`. -/
def users (x : ℕ) (c : List Mbuf) : ℕ := c.countP fun m => m.buf = .ext x

@[simp] theorem users_nil (x : ℕ) : users x [] = 0 := rfl

theorem users_cons (x : ℕ) (m : Mbuf) (c : List Mbuf) :
    users x (m :: c) = users x c + if m.buf = .ext x then 1 else 0 := by
  simp [users, List.countP_cons]

theorem users_append (x : ℕ) (c d : List Mbuf) : users x (c ++ d) = users x c + users x d :=
  List.countP_append

theorem users_pos {x : ℕ} {m : Mbuf} {c : List Mbuf} (hm : m ∈ c) (hx : m.buf = .ext x) :
    0 < users x c :=
  List.countP_pos_iff.mpr ⟨m, hm, by simpa using hx⟩

/-- The mbufs of a chain that are wiped when it is freed: those from the first one with
`M_ZEROIZE` on. -/
def wiped (c : List Mbuf) : List Mbuf := c.dropWhile fun m => !m.zeroize

/-- No storage that is wiped when the chain is freed is shared or read-only. -/
def ZeroizeOwned (mem : Mem) (c : List Mbuf) : Prop :=
  ∀ m ∈ wiped c, mem.M_READONLY m = false

structure ChainWf (mem : Mem) (c : List Mbuf) : Prop where
  storage : ∀ m ∈ c, m.InStorage
  old : ∀ m ∈ c, m.Old mem
  addr : (c.map Mbuf.addr).Nodup
  refs : ∀ x, users x c ≤ mem.refs x
  zeroize : ZeroizeOwned mem c
  /-- `M_COPYALL` stands for a length that no packet has. -/
  short : chainLen c < M_COPYALL

/-- The header of the first mbuf, if it has one, holds the length of the chain. -/
def HdrLen (c : List Mbuf) : Prop :=
  ∀ m ∈ c.head?, ∀ ph ∈ m.m_pkthdr, ph.len = chainLen c

/-- The first mbuf has a packet header. -/
def HasHdr (c : List Mbuf) : Prop := ∃ h ∈ c.head?, h.m_pkthdr ≠ none

/-- It has one, which holds the length of the chain. -/
def HdrIs (c : List Mbuf) : Prop := ∃ h ∈ c.head?, ∃ ph ∈ h.m_pkthdr, ph.len = chainLen c

theorem HdrIs.hdrLen {c : List Mbuf} (h : HdrIs c) : HdrLen c := by
  obtain ⟨m, hm, ph, hph, hlen⟩ := h
  rintro m' hm' ph' hph'
  obtain rfl : m = m' := Option.some.inj (hm.symm.trans hm')
  obtain rfl : ph = ph' := Option.some.inj (hph.symm.trans hph')
  exact hlen

/-- A chain without external storage and without storage to be wiped. -/
theorem ChainWf.of_internal {mem : Mem} {c : List Mbuf}
    (hplain : ∀ m ∈ c, m.m_ext = none ∧ m.zeroize = false) (hin : ∀ m ∈ c, m.InStorage)
    (hold : ∀ m ∈ c, m.addr < mem.next) (haddr : (c.map Mbuf.addr).Nodup)
    (hshort : chainLen c < M_COPYALL) : ChainWf mem c where
  storage := hin
  old m hm := ⟨hold m hm, fun e he => by rw [(hplain m hm).1] at he; cases he⟩
  addr := haddr
  refs x := by
    refine (Nat.le_of_eq (List.countP_eq_zero.mpr fun m hm => ?_)).trans (Nat.zero_le _)
    simp [Mbuf.buf, (hplain m hm).1]
  zeroize m hm := by
    have hnil : wiped c = [] :=
      List.dropWhile_eq_nil_iff.mpr fun k hk => by simp [(hplain k hk).2]
    rw [hnil] at hm
    cases hm
  short := hshort

section Release

variable {mem : Mem}

theorem M_READONLY_eq_false {m : Mbuf} :
    mem.M_READONLY m = false ↔
      ∀ e, m.m_ext = some e → e.extwr = true ∧ mem.refs e.ext_buf = 1 := by
  unfold Mem.M_READONLY
  cases m.m_ext with
  | none => simp
  | some e => simp

theorem buf_eq_ext {m : Mbuf} {x : ℕ} :
    m.buf = .ext x ↔ ∃ e, m.m_ext = some e ∧ e.ext_buf = x := by
  unfold Mbuf.buf
  cases m.m_ext with
  | none => simp
  | some e => simp

theorem m_put_refs (mem : Mem) (m : Mbuf) (x : ℕ) :
    (m_put mem m).refs x = mem.refs x - if m.buf = .ext x then 1 else 0 := by
  unfold m_put m_extfree Mbuf.buf
  cases m.m_ext with
  | none => simp
  | some e =>
    by_cases hx : e.ext_buf = x
    · simp [hx]
    · simp [hx, Ne.symm hx]

@[simp] theorem m_put_store (mem : Mem) (m : Mbuf) : (m_put mem m).store = mem.store := by
  unfold m_put m_extfree
  cases m.m_ext <;> rfl

@[simp] theorem m_put_freed (mem : Mem) (m : Mbuf) :
    (m_put mem m).freed = mem.freed ++ [m.addr] := by
  unfold m_put m_extfree
  cases m.m_ext <;> rfl

@[simp] theorem m_put_next (mem : Mem) (m : Mbuf) : (m_put mem m).next = mem.next := by
  unfold m_put m_extfree
  cases m.m_ext <;> rfl

@[simp] theorem m_put_nextcl (mem : Mem) (m : Mbuf) : (m_put mem m).nextcl = mem.nextcl := by
  unfold m_put m_extfree
  cases m.m_ext <;> rfl

@[simp] theorem m_put_grants (mem : Mem) (m : Mbuf) : (m_put mem m).grants = mem.grants := by
  unfold m_put m_extfree
  cases m.m_ext <;> rfl

theorem wiped_cons_of_zeroize {m : Mbuf} (hm : m.zeroize = true) (c : List Mbuf) :
    wiped (m :: c) = m :: c := by
  simp [wiped, hm]

theorem wiped_cons_of_not {m : Mbuf} (hm : m.zeroize = false) (c : List Mbuf) :
    wiped (m :: c) = wiped c := by
  simp [wiped, hm]

theorem mem_of_mem_wiped {m : Mbuf} {c : List Mbuf} (h : m ∈ wiped c) : m ∈ c :=
  (List.dropWhile_suffix _).mem h

theorem wiped_eq_nil {c : List Mbuf} (h : ∀ m ∈ c, m.zeroize = false) : wiped c = [] :=
  List.dropWhile_eq_nil_iff.mpr fun m hm => by simp [h m hm]

@[simp] theorem length_zeroizeHead (c : List Mbuf) : (zeroizeHead c).length = c.length := by
  cases c <;> rfl

@[simp] theorem map_addr_zeroizeHead (c : List Mbuf) :
    (zeroizeHead c).map Mbuf.addr = c.map Mbuf.addr := by
  cases c <;> rfl

@[simp] theorem users_zeroizeHead (x : ℕ) (c : List Mbuf) : users x (zeroizeHead c) = users x c := by
  cases c with
  | nil => rfl
  | cons n c =>
    simp only [zeroizeHead, users_cons]
    rfl

theorem mem_zeroizeHead {m : Mbuf} {c : List Mbuf} (h : m ∈ zeroizeHead c) :
    ∃ k ∈ c, m.buf = k.buf ∧ m.m_ext = k.m_ext := by
  cases c with
  | nil => cases h
  | cons n c =>
    rcases List.mem_cons.mp h with rfl | h
    · exact ⟨n, List.mem_cons_self, rfl, rfl⟩
    · exact ⟨m, List.mem_cons_of_mem _ h, rfl, rfl⟩

/-- An mbuf whose buffer is its own stays the owner when an mbuf on another buffer is freed. -/
theorem owned_of_put {m k : Mbuf} {c : List Mbuf} (hk : mem.M_READONLY k = false)
    (hmem : ∃ k' ∈ c, k.buf = k'.buf) (hrefs : ∀ x, users x (m :: c) ≤ mem.refs x) :
    (m_put mem m).M_READONLY k = false := by
  rw [M_READONLY_eq_false] at hk ⊢
  intro e he
  obtain ⟨hwr, href⟩ := hk e he
  obtain ⟨k', hk', hbuf⟩ := hmem
  have hkx : k.buf = .ext e.ext_buf := buf_eq_ext.mpr ⟨e, he, rfl⟩
  have hpos := users_pos hk' (hbuf ▸ hkx)
  have hle := hrefs e.ext_buf
  rw [users_cons, href] at hle
  have hm : m.buf ≠ .ext e.ext_buf := by
    intro hm
    rw [if_pos hm] at hle
    omega
  exact ⟨hwr, by rw [m_put_refs, if_neg hm, href]⟩

/-- What freeing a chain does. -/
structure Released (mem : Mem) (c : List Mbuf) (mem' : Mem) : Prop where
  store : ∀ b, (∀ m ∈ wiped c, m.buf ≠ b) → ∀ i, mem'.store b i = mem.store b i
  refs : ∀ x, mem'.refs x = mem.refs x - users x c
  freed : mem'.freed = mem.freed ++ c.map Mbuf.addr
  next : mem'.next = mem.next
  nextcl : mem'.nextcl = mem.nextcl
  grants : mem'.grants = mem.grants

theorem m_free_spec {m : Mbuf} {c : List Mbuf} (hz : ZeroizeOwned mem (m :: c))
    (hrefs : ∀ x, users x (m :: c) ≤ mem.refs x) :
    ∃ c' mem', m_free mem m c = some (c', mem') ∧
      (c' = c ∧ m.zeroize = false ∨ c' = zeroizeHead c ∧ m.zeroize = true) ∧
      ZeroizeOwned mem' c' ∧ (∀ x, users x c' ≤ mem'.refs x) ∧ Released mem [m] mem' := by
  have hput (x : ℕ) : users x c ≤ (m_put mem m).refs x := by
    have h := hrefs x
    rw [users_cons] at h
    rw [m_put_refs]
    omega
  cases hm : m.zeroize with
  | false =>
    refine ⟨c, m_put mem m, by simp [m_free, hm], .inl ⟨rfl, rfl⟩, ?_, hput, ?_⟩
    · intro k hk
      rw [ZeroizeOwned, wiped_cons_of_not hm] at hz
      exact owned_of_put (hz k hk) ⟨k, mem_of_mem_wiped hk, rfl⟩ hrefs
    · exact ⟨by simp, by simp [m_put_refs, users_cons], by simp, by simp, by simp, by simp⟩
  | true =>
    rw [ZeroizeOwned, wiped_cons_of_zeroize hm] at hz
    let mem₁ := mem.copyin m.buf m.base (List.replicate (m.limit - m.base) 0)
    have hzero : m_zero mem m = some mem₁ := by
      simp [m_zero, hz m List.mem_cons_self, mem₁]
    refine ⟨zeroizeHead c, m_put mem₁ m, by simp [m_free, hm, hzero], .inr ⟨rfl, rfl⟩, ?_, ?_, ?_⟩
    · intro k hk
      obtain ⟨k', hk', hbuf, hext⟩ := mem_zeroizeHead (mem_of_mem_wiped hk)
      have hown : mem₁.M_READONLY k = false := by
        have := hz k' (List.mem_cons_of_mem _ hk')
        rw [M_READONLY_eq_false] at this ⊢
        rwa [hext]
      exact owned_of_put hown ⟨k', hk', hbuf⟩ hrefs
    · intro x
      rw [users_zeroizeHead]
      exact (hput x).trans_eq (by rw [m_put_refs, m_put_refs]; rfl)
    · refine ⟨fun b hb i => ?_, fun x => ?_, by simp [mem₁, Mem.copyin], by simp [mem₁, Mem.copyin],
        by simp [mem₁, Mem.copyin], by simp [mem₁, Mem.copyin]⟩
      · rw [m_put_store]
        exact mem.store.write_of_ne _ _ _
          (Ne.symm (hb m (by rw [wiped_cons_of_zeroize hm]; exact List.mem_cons_self)))
      · simp [m_put_refs, users_cons, mem₁, Mem.copyin]

theorem freeLoop_spec (i : ℕ) {mem : Mem} {c : List Mbuf} (hi : c.length = i)
    (hz : ZeroizeOwned mem c) (hrefs : ∀ x, users x c ≤ mem.refs x) :
    ∃ mem', freeLoop i mem c = some mem' ∧ Released mem c mem' := by
  induction i generalizing mem c with
  | zero =>
    obtain rfl := List.length_eq_zero_iff.mp hi
    exact ⟨mem, rfl, fun _ _ _ => rfl, by simp, by simp, rfl, rfl, rfl⟩
  | succ i ih =>
    obtain ⟨m, c, rfl⟩ := List.exists_cons_of_length_eq_add_one hi
    obtain ⟨c', mem₁, hfree, hc', hz₁, hrefs₁, hr⟩ := m_free_spec hz hrefs
    have hlen : c'.length = i := by
      rcases hc' with ⟨rfl, -⟩ | ⟨rfl, -⟩ <;> simpa using hi
    obtain ⟨mem', hloop, hr'⟩ := ih hlen hz₁ hrefs₁
    have husers (x : ℕ) : users x c' = users x c := by
      rcases hc' with ⟨rfl, -⟩ | ⟨rfl, -⟩ <;> simp
    have haddr : c'.map Mbuf.addr = c.map Mbuf.addr := by
      rcases hc' with ⟨rfl, -⟩ | ⟨rfl, -⟩ <;> simp
    refine ⟨mem', by simp only [freeLoop, hfree, hloop], ?_⟩
    refine ⟨fun b hb j => ?_, fun x => ?_, ?_, hr'.next.trans hr.next,
      hr'.nextcl.trans hr.nextcl, hr'.grants.trans hr.grants⟩
    · rw [hr'.store b ?_ j, hr.store b ?_ j]
      · intro k hk
        obtain rfl := List.mem_singleton.mp (mem_of_mem_wiped hk)
        cases hkz : k.zeroize with
        | false => simp [wiped, hkz] at hk
        | true => exact hb k (by rw [wiped_cons_of_zeroize hkz]; exact List.mem_cons_self)
      · intro k hk
        rcases hc' with ⟨rfl, hm⟩ | ⟨rfl, hm⟩
        · exact hb k (by rwa [wiped_cons_of_not hm])
        · obtain ⟨k', hk', hbuf, -⟩ := mem_zeroizeHead (mem_of_mem_wiped hk)
          rw [hbuf]
          exact hb k' (by rw [wiped_cons_of_zeroize hm]; exact List.mem_cons_of_mem _ hk')
    · rw [hr'.refs, hr.refs, husers, users_cons, users_cons, users_nil]
      omega
    · rw [hr'.freed, hr.freed, haddr]
      simp

/-- A chain whose wiped storage is its own is freed, every mbuf once. -/
theorem m_freem_spec {mem : Mem} {c : List Mbuf} (hz : ZeroizeOwned mem c)
    (hrefs : ∀ x, users x c ≤ mem.refs x) :
    ∃ mem', m_freem mem c = some mem' ∧ Released mem c mem' :=
  freeLoop_spec c.length rfl hz hrefs

end Release

end OpenbsdKernel.UipcMbuf
