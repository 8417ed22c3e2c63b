import OpenbsdKernel.Kern.Mbuf.Copym

/-!
# Splitting a chain in two

The tail of the mbuf at the split point goes to a new mbuf, by reference for external
storage and by copy otherwise. When it is too long for a new header mbuf, that mbuf is
put in front of the tail that a second call splits off, with the length that the pool
item happens to have.
-/
namespace OpenbsdKernel.UipcMbuf

open Store

/-- The loop that looks for position `len`: the mbufs passed, the one found, the chain behind it,
and the position within it. -/
def seek : List Mbuf → ℕ → Option (List Mbuf × Mbuf × List Mbuf × ℕ)
  | [], _ => none
  | m :: c, len =>
    if m.m_len < len then
      (seek c (len - m.m_len)).map fun (pre, k, post, len) => (m :: pre, k, post, len)
    else some ([], m, c, len)

/-- `m0->m_pkthdr.len = len`, where `m0` may be the found mbuf itself. -/
def setLead : List Mbuf → Mbuf → ℤ → List Mbuf × Mbuf
  | [], m, len => ([], m.setPktLen len)
  | h :: pre, m, len => (h.setPktLen len :: pre, m)

/-- `n->m_pkthdr.len -= len0`. -/
def Mbuf.subPktLen (n : Mbuf) (len0 : ℕ) : Mbuf :=
  { n with m_pkthdr := n.m_pkthdr.map fun ph => { ph with len := ph.len - len0 } }

/-- From the label `extpacket` on: the found mbuf and the tail. -/
def extpacket (mem : Mem) (m : Mbuf) (c : List Mbuf) (n : Mbuf) (len : ℕ) :
    Mbuf × List Mbuf × Mem :=
  let remain := m.m_len - len
  if m.m_ext.isSome then
    let (n, mem) := m_extref mem m n
    ({ m with m_len := len }, { n with m_data := m.m_data + len, m_len := remain } :: c, mem)
  else
    let mem := mem.memcpy n.buf n.m_data m.buf (m.m_data + len) remain
    ({ m with m_len := len }, { n with m_len := remain } :: c, mem)

/-- `m_split`: the chain afterwards and the tail. The first argument bounds the depth of the calls;
a call with a header as its first mbuf calls itself for a later mbuf. -/
def m_split : ℕ → Mem → List Mbuf → ℕ → Option (List Mbuf × List Mbuf × Mem)
  | 0, _, _, _ => none
  | _ + 1, mem, [], _ => some ([], [], mem)
  | i + 1, mem, m0 :: c0, len0 =>
    match seek (m0 :: c0) len0 with
    | none => some (m0 :: c0, [], mem)
    | some (pre, m, c, len) =>
      let remain := m.m_len - len
      match m0.m_pkthdr with
      | some ph0 =>
        match m_gethdr mem with
        | (none, mem) => some (m0 :: c0, [], mem)
        | (some n, mem) =>
          match m_dup_pkthdr mem n m0 with
          | none => none
          | some (true, n, mem) => (m_freem mem [n]).map fun mem => (m0 :: c0, [], mem)
          | some (false, n, mem) =>
            let n := n.subPktLen len0
            let olen := ph0.len
            let (pre, m) := setLead pre m len0
            if m.m_ext.isSome then
              let (m, tail, mem) := extpacket mem m c n len
              some (pre ++ [m], tail, mem)
            else if MHLEN < remain then
              -- `m` cannot be the lead packet
              let n := MH_ALIGN n 0
              match m_split i mem (m :: c) len with
              | none => none
              | some (mc, [], mem) =>
                match mc with
                | [] => none
                | m :: c =>
                  let (pre, m) := setLead pre m olen
                  (m_free mem n []).map fun r => (pre ++ m :: c, [], r.2)
              | some (mc, n' :: tail, mem) => some (pre ++ mc, n :: n' :: tail, mem)
            else
              let (m, tail, mem) := extpacket mem m c (MH_ALIGN n remain) len
              some (pre ++ [m], tail, mem)
      | none =>
        if remain = 0 then some (pre ++ [m], c, mem)
        else
          match m_get mem with
          | (none, mem) => some (m0 :: c0, [], mem)
          | (some n, mem) =>
            let (m, tail, mem) := extpacket mem m c (M_ALIGN n remain) len
            some (pre ++ [m], tail, mem)

section Seek

theorem seek_spec {c : List Mbuf} {len : ℕ} (hne : c ≠ []) (hlen : len ≤ chainLen c) :
    ∃ pre m post i, seek c len = some (pre, m, post, i) ∧ c = pre ++ m :: post ∧
      len = chainLen pre + i ∧ i ≤ m.m_len := by
  induction c generalizing len with
  | nil => exact absurd rfl hne
  | cons m c ih =>
    unfold seek
    by_cases h : m.m_len < len
    · rw [chainLen_cons] at hlen
      have hc : c ≠ [] := by
        rintro rfl
        simp at hlen
        omega
      obtain ⟨pre, k, post, i, hseek, hsplit, hsum, hi⟩ :=
        ih hc (show len - m.m_len ≤ chainLen c by omega)
      refine ⟨m :: pre, k, post, i, by simp [h, hseek], by simp [hsplit], ?_, hi⟩
      rw [chainLen_cons]
      omega
    · exact ⟨[], m, c, len, by rw [if_neg h], rfl, by simp, not_lt.mp h⟩

end Seek

section Lead

theorem setLead_locs (pre : List Mbuf) (m : Mbuf) (len : ℤ) :
    chainLocs (setLead pre m len).1 = chainLocs pre ∧
      (setLead pre m len).2.locs = m.locs := by
  cases pre <;> exact ⟨rfl, rfl⟩

theorem setLead_same (pre : List Mbuf) (m : Mbuf) (len : ℤ) :
    chainLen (setLead pre m len).1 = chainLen pre ∧
      (setLead pre m len).2.m_len = m.m_len ∧ (setLead pre m len).2.m_ext = m.m_ext ∧
      (setLead pre m len).2.addr = m.addr := by
  cases pre <;> exact ⟨rfl, rfl, rfl, rfl⟩

theorem setPktLen_setPktLen {h : Mbuf} {ph : Pkthdr} (hph : h.m_pkthdr = some ph) (len : ℤ) :
    (h.setPktLen len).setPktLen ph.len = h := by
  obtain ⟨addr, m_data, m_len, m_pkthdr, m_ext, zeroize⟩ := h
  obtain rfl := hph
  rfl

theorem setLead_restore {pre : List Mbuf} {m h : Mbuf} {ph : Pkthdr}
    (hh : h ∈ (pre ++ [m]).head?) (hph : h.m_pkthdr = some ph) (len : ℤ) :
    setLead (setLead pre m len).1 (setLead pre m len).2 ph.len = (pre, m) := by
  cases pre with
  | nil =>
    obtain rfl : m = h := Option.some.inj hh
    simp only [setLead, setPktLen_setPktLen hph]
  | cons k pre =>
    obtain rfl : k = h := Option.some.inj hh
    simp only [setLead, setPktLen_setPktLen hph]

theorem setLead_hdr {pre : List Mbuf} {m m' h : Mbuf} {ph : Pkthdr} {len : ℕ} {c : List Mbuf}
    (hh : h ∈ (pre ++ [m]).head?) (hph : h.m_pkthdr = some ph)
    (hm' : m'.m_pkthdr = (setLead pre m len).2.m_pkthdr)
    (hlen : chainLen ((setLead pre m len).1 ++ m' :: c) = len) :
    HdrIs ((setLead pre m len).1 ++ m' :: c) := by
  cases pre with
  | nil =>
    obtain rfl : m = h := Option.some.inj hh
    refine ⟨m', rfl, { ph with len := len }, ?_, by rw [hlen]⟩
    rw [hm']
    simp [setLead, Mbuf.setPktLen, hph]
  | cons k pre =>
    obtain rfl : k = h := Option.some.inj hh
    refine ⟨k.setPktLen len, rfl, { ph with len := len }, ?_, by rw [hlen]⟩
    simp [Mbuf.setPktLen, hph]

end Lead

section Tail

variable {mem₀ mem : Mem} {m n : Mbuf} {c : List Mbuf} {len : ℕ}

theorem locs_split (m : Mbuf) (h : len ≤ m.m_len) :
    m.locs = region m.buf m.m_data len ++ region m.buf (m.m_data + len) (m.m_len - len) := by
  rw [Mbuf.locs, ← region_add, Nat.add_sub_cancel' h]

theorem extpacket_spec (hk : mem₀.Keeps mem) (hn : mem₀.next ≤ n.addr) (hext : n.m_ext = none)
    (hm : m.Old mem₀) (hc : ∀ k ∈ c, k.Old mem₀) (hlen : len ≤ m.m_len) :
    ∃ m' n' mem', extpacket mem m c n len = (m', n' :: c, mem') ∧ mem₀.Keeps mem' ∧
      mem'.bytes (m' :: n' :: c) = mem₀.bytes (m :: c) ∧ m'.m_len = len ∧
      n'.m_len = m.m_len - len ∧ m'.m_pkthdr = m.m_pkthdr ∧ n'.m_pkthdr = n.m_pkthdr := by
  let m' : Mbuf := { m with m_len := len }
  have hm' : m'.locs = region m.buf m.m_data len := rfl
  cases he : m.m_ext with
  | some e =>
    let n' : Mbuf := { n with m_ext := some e, m_data := m.m_data + len, m_len := m.m_len - len }
    have hn' : n'.locs = region m.buf (m.m_data + len) (m.m_len - len) := by
      simp [Mbuf.locs, Mbuf.buf, n', he]
    let mem' : Mem :=
      { mem with refs := Function.update mem.refs e.ext_buf (mem.refs e.ext_buf + 1) }
    have hk' : mem₀.Keeps mem' := ⟨hk.next, hk.nextcl, hk.store⟩
    refine ⟨m', n', mem', ?_, hk', ?_, rfl, rfl, rfl, rfl⟩
    · simp [extpacket, m_extref, he, m', n', mem']
    · rw [← hk'.bytes (List.forall_mem_cons.mpr ⟨hm, hc⟩), Mem.bytes_cons, Mem.bytes_cons,
        Mem.bytes_cons, ← List.append_assoc, ← read_append, hm', hn', ← locs_split m hlen]
  | none =>
    let n' : Mbuf := { n with m_len := m.m_len - len }
    have hbuf : ¬ mem₀.Old n'.buf := by
      simp only [Mbuf.buf, n', hext]
      exact not_lt.mpr hn
    let mem' := mem.memcpy n'.buf n'.m_data m.buf (m.m_data + len) (m.m_len - len)
    have hk' : mem₀.Keeps mem' := hk.copyin hbuf _ _
    have hread : mem'.store.read n'.locs =
        mem₀.store.read (region m.buf (m.m_data + len) (m.m_len - len)) := by
      refine (read_copyin_self _ _ _ _ _ (by simp [n'])).trans (hk.read fun l hl => ?_)
      rw [(mem_region.mp hl).1]
      exact hm.buf
    refine ⟨m', n', mem', ?_, hk', ?_, rfl, rfl, rfl, rfl⟩
    · simp [extpacket, he, m', n', mem', Mbuf.buf]
    · have hhead : mem'.store.read m'.locs = mem₀.store.read (region m.buf m.m_data len) := by
        rw [hm']
        refine hk'.read fun l hl => ?_
        rw [(mem_region.mp hl).1]
        exact hm.buf
      rw [Mem.bytes_cons, Mem.bytes_cons, Mem.bytes_cons, hk'.bytes hc, hread, hhead,
        ← List.append_assoc, ← read_append, ← locs_split m hlen]

end Tail

/-- What a split leaves: both parts hold what the chain held, or nothing has changed. -/
structure Parted (mem : Mem) (c : List Mbuf) (len0 : ℕ) (c' n : List Mbuf) (mem' : Mem) :
    Prop where
  keeps : mem.Keeps mem'
  failed : n = [] → c' = c
  bytes : n ≠ [] → mem'.bytes (c' ++ n) = mem.bytes c
  len : n ≠ [] → chainLen c' = len0
  plenty : mem.Plenty → len0 < chainLen c → n ≠ []

section Plain

variable {mem : Mem} {c : List Mbuf} {len0 : ℕ}

theorem Parted.null {mem' : Mem} (hk : mem.Keeps mem') (hno : ¬ mem.Plenty) :
    Parted mem c len0 c [] mem' :=
  ⟨hk, fun _ => rfl, fun h => absurd rfl h, fun h => absurd rfl h, fun h => absurd h hno⟩

theorem Parted.around {mem' : Mem} {pre rest tail : List Mbuf} {m m' n : Mbuf} {i : ℕ}
    (hk : mem.Keeps mem') (hpre : ∀ k ∈ pre, k.Old mem)
    (hbytes : mem'.bytes (m' :: n :: tail) = mem.bytes (m :: rest)) {pre' : List Mbuf}
    (hlocs : chainLocs pre' = chainLocs pre) (hlen : chainLen pre' = chainLen pre)
    (hm' : m'.m_len = i) (hi : len0 = chainLen pre + i) :
    Parted mem (pre ++ m :: rest) len0 (pre' ++ [m']) (n :: tail) mem' where
  keeps := hk
  failed h := by cases h
  bytes _ := by
    rw [List.append_assoc, List.singleton_append, Mem.bytes_append, Mem.bytes_append, hbytes,
      ← hk.bytes hpre]
    simp only [Mem.bytes, hlocs]
  len _ := by simp [hlen, hm', hi]
  plenty _ _ := by simp

theorem m_split_plain (c : List Mbuf) (len0 i : ℕ) (hold : ∀ m ∈ c, m.Old mem) (hne : c ≠ [])
    (hlen : len0 ≤ chainLen c) (hhdr : ∀ h ∈ c.head?, h.m_pkthdr = none) :
    ∃ c' n mem', m_split (i + 1) mem c len0 = some (c', n, mem') ∧ c' ≠ [] ∧
      Parted mem c len0 c' n mem' := by
  obtain ⟨pre, m, post, j, hseek, hsplit, hsum, hj⟩ := seek_spec hne hlen
  obtain ⟨m0, c0, hc⟩ := List.exists_cons_of_ne_nil hne
  have hm0 : m0.m_pkthdr = none := hhdr m0 (by rw [hc]; rfl)
  have hpre : ∀ k ∈ pre, k.Old mem := fun k hk => hold k (by simp [hsplit, hk])
  have hm : m.Old mem := hold m (by simp [hsplit])
  have hpost : ∀ k ∈ post, k.Old mem := fun k hk => hold k (by simp [hsplit, hk])
  rw [hc, m_split, ← hc]
  simp only [hseek, hm0]
  by_cases hrem : m.m_len - j = 0
  · rw [if_pos hrem]
    refine ⟨pre ++ [m], post, mem, rfl, by simp, .refl mem, ?_, ?_, ?_, ?_⟩
    · rintro rfl
      rw [hsplit]
    · intro _
      rw [hsplit, List.append_assoc, List.singleton_append]
    · intro _
      simp only [chainLen_append, chainLen_cons, chainLen_nil]
      omega
    · rintro - hlt rfl
      rw [hsplit] at hlt
      simp at hlt
      omega
  rw [if_neg hrem]
  rcases m_get_cases mem with ⟨hg, hget⟩ | ⟨junk, hg, hget⟩
  · simp only [hget]
    exact ⟨c, [], mem.advance, rfl, hne, .null (keeps_advance mem) fun h => h 0 hg⟩
  simp only [hget]
  obtain ⟨m', n', mem', hext, hk, hbytes, hm', -⟩ :=
    extpacket_spec (n := M_ALIGN (mem.plain junk) (m.m_len - j)) (keeps_next mem) le_rfl rfl hm
      hpost hj
  simp only [hext]
  refine ⟨pre ++ [m'], n' :: post, mem', rfl, by simp, ?_⟩
  rw [hsplit]
  exact .around hk hpre hbytes rfl rfl hm' hsum

end Plain

section Header

variable {mem₀ mem : Mem} {n : Mbuf}

theorem m_free_fresh (hk : mem₀.Keeps mem) (hn : mem₀.next ≤ n.addr) (hext : n.m_ext = none) :
    ∃ c' mem', m_free mem n [] = some (c', mem') ∧ mem₀.Keeps mem' := by
  have hown : ZeroizeOwned mem [n] := by
    intro k hk
    obtain rfl := List.mem_singleton.mp (mem_of_mem_wiped hk)
    simp [Mem.M_READONLY, hext]
  obtain ⟨c', mem', hfree, -, -, -, hr⟩ :=
    m_free_spec hown fun x => by rw [users_singleton_of_none hext]; exact Nat.zero_le _
  refine ⟨c', mem', hfree, hk.next.trans hr.next.ge, hk.nextcl.trans hr.nextcl.ge,
    fun b i hb => ?_⟩
  rw [hr.store b ?_ i, hk.store b i hb]
  intro k hk he
  obtain rfl := List.mem_singleton.mp (mem_of_mem_wiped hk)
  have hbuf : k.buf = .dat k.addr := by simp [Mbuf.buf, hext]
  rw [← he, hbuf] at hb
  exact absurd hb (not_lt.mpr hn)

theorem m_freem_fresh (hk : mem₀.Keeps mem) (hn : mem₀.next ≤ n.addr) (hext : n.m_ext = none) :
    ∃ mem', m_freem mem [n] = some mem' ∧ mem₀.Keeps mem' := by
  obtain ⟨c', mem', hfree, hk'⟩ := m_free_fresh hk hn hext
  exact ⟨mem', by simp [m_freem, freeLoop, hfree], hk'⟩

variable {c pre post : List Mbuf} {m0 m : Mbuf} {ph0 : Pkthdr} {len0 j : ℕ}

def tailHdr (mem : Mem) (junk : ℕ) (m0 : Mbuf) (ph0 : Pkthdr) (len0 : ℕ) : Mbuf :=
  ((m_inithdr (mem.plain junk)).headed m0 ph0).subPktLen len0

theorem tailHdr_pkthdr (mem : Mem) (junk : ℕ) (m0 : Mbuf) (ph0 : Pkthdr) (len0 : ℕ) :
    (tailHdr mem junk m0 ph0 len0).m_pkthdr = some { ph0 with len := ph0.len - len0 } := rfl

/-- The steps before the shapes of the found mbuf are told apart: a header is allocated and filled,
or the chain is left alone. -/
theorem m_split_start (i : ℕ) (hc : m0 ∈ c.head?) (hph : m0.m_pkthdr = some ph0)
    (hseek : seek c len0 = some (pre, m, post, j)) :
    (∃ mem', m_split (i + 1) mem c len0 = some (c, [], mem') ∧ mem.Keeps mem' ∧
        ¬ mem.Plenty) ∨
      ∃ junk g, mem.grants 0 = some junk ∧ (mem.Plenty → ∀ k, g k ≠ none) ∧
        m_split (i + 1) mem c len0 =
          let mem₁ := ({ mem with next := mem.next + 1 } : Mem).withGrants g
          let n := tailHdr mem junk m0 ph0 len0
          let (pre, m) := setLead pre m len0
          if m.m_ext.isSome then
            let (m, tail, mem) := extpacket mem₁ m post n j
            some (pre ++ [m], tail, mem)
          else if MHLEN < m.m_len - j then
            let n := MH_ALIGN n 0
            match m_split i mem₁ (m :: post) j with
            | none => none
            | some (mc, [], mem) =>
              match mc with
              | [] => none
              | m :: c =>
                let (pre, m) := setLead pre m ph0.len
                (m_free mem n []).map fun r => (pre ++ m :: c, [], r.2)
            | some (mc, n' :: tail, mem) => some (pre ++ mc, n :: n' :: tail, mem)
          else
            let (m, tail, mem) := extpacket mem₁ m post (MH_ALIGN n (m.m_len - j)) j
            some (pre ++ [m], tail, mem) := by
  obtain ⟨c0, rfl⟩ : ∃ c0, c = m0 :: c0 := by
    cases c with
    | nil => cases hc
    | cons k c =>
      obtain rfl : k = m0 := Option.some.inj hc
      exact ⟨c, rfl⟩
  rw [m_split]
  simp only [hseek, hph]
  rcases m_gethdr_cases mem with ⟨hg, hget⟩ | ⟨junk, hg, hget⟩
  · simp only [hget]
    exact .inl ⟨mem.advance, rfl, keeps_advance mem, fun h => h 0 hg⟩
  simp only [hget]
  obtain ⟨g, hp, ⟨hdup, hno⟩ | hdup⟩ := m_dup_pkthdr_cases
    { mem.advance with next := mem.next + 1 } (m_inithdr (mem.plain junk)) hph
  · simp only [hdup]
    obtain ⟨mem', hfree, hk⟩ := m_freem_fresh
      (n := { m_inithdr (mem.plain junk) with
        m_pkthdr := some { ph0 with tags := [] }, zeroize := m0.zeroize })
      ((keeps_next mem).trans (Mem.keeps_withGrants _ g)) le_rfl rfl
    exact .inl ⟨mem', by simp only [hfree]; rfl, hk, fun h => hno fun k => h (k + 1)⟩
  · simp only [hdup]
    exact .inr ⟨junk, g, hg, fun h => hp fun k => h (k + 1), by
      rw [(setLead_same pre m len0).2.1]
      rfl⟩

theorem keeps_started (mem : Mem) (g : ℕ → Option ℕ) :
    mem.Keeps (({ mem with next := mem.next + 1 } : Mem).withGrants g) :=
  ⟨Nat.le_succ _, le_rfl, fun _ _ _ => rfl⟩

theorem head_append_singleton {h : Mbuf} (hh : h ∈ (pre ++ m :: post).head?) :
    h ∈ (pre ++ [m]).head? := by
  cases pre <;> simpa using hh

/-- A header chain is split when the found mbuf has external storage or its tail fits a header
mbuf; both headers then hold the lengths of their chains. -/
theorem m_split_hdr (i : ℕ) (hold : ∀ k ∈ c, k.Old mem) (hc : m0 ∈ c.head?)
    (hph : m0.m_pkthdr = some ph0) (hlen : ph0.len = chainLen c)
    (hseek : seek c len0 = some (pre, m, post, j)) (hsplit : c = pre ++ m :: post)
    (hsum : len0 = chainLen pre + j) (hj : j ≤ m.m_len)
    (hsafe : m.m_ext = none → m.m_len - j ≤ MHLEN) :
    ∃ c' n mem', m_split (i + 1) mem c len0 = some (c', n, mem') ∧ Parted mem c len0 c' n mem' ∧
      (n ≠ [] → HdrIs c' ∧ HdrIs n) := by
  rcases m_split_start i hc hph hseek with ⟨mem', heq, hk, hno⟩ | ⟨junk, g, -, -, heq⟩
  · exact ⟨c, [], mem', heq, .null hk hno, fun h => absurd rfl h⟩
  have hpre : ∀ k ∈ pre, k.Old mem := fun k hk => hold k (by simp [hsplit, hk])
  have hpost : ∀ k ∈ post, k.Old mem := fun k hk => hold k (by simp [hsplit, hk])
  have hm : m.Old mem := hold m (by simp [hsplit])
  obtain ⟨hlen₁, hmlen₁, hext₁, haddr₁⟩ := setLead_same pre m len0
  obtain ⟨hlocs₁, hmlocs₁⟩ := setLead_locs pre m len0
  have hlead : m0 ∈ (pre ++ [m]).head? := head_append_singleton (hsplit ▸ hc)
  have hhdr (m' : Mbuf) (hm' : m'.m_pkthdr = (setLead pre m len0).2.m_pkthdr)
      (hlen' : chainLen ((setLead pre m len0).1 ++ [m']) = len0) :
      HdrIs ((setLead pre m len0).1 ++ [m']) := setLead_hdr hlead hph hm' hlen'
  rw [heq]
  obtain ⟨pre₁, m₁, hset⟩ : ∃ a b, setLead pre m len0 = (a, b) := ⟨_, _, rfl⟩
  simp only [hset] at hlen₁ hmlen₁ hext₁ haddr₁ hlocs₁ hmlocs₁ hhdr ⊢
  have hm₁ : m₁.Old mem := ⟨haddr₁ ▸ hm.1, hext₁ ▸ hm.2⟩
  -- both shapes of the new mbuf end alike
  have hend (n : Mbuf) (hn : mem.next ≤ n.addr) (hnext : n.m_ext = none)
      (hnhdr : n.m_pkthdr = some { ph0 with len := ph0.len - len0 }) :
      ∃ m' n' mem', extpacket (({ mem with next := mem.next + 1 } : Mem).withGrants g) m₁ post n j =
          (m', n' :: post, mem') ∧ Parted mem c len0 (pre₁ ++ [m']) (n' :: post) mem' ∧
        (n' :: post ≠ [] → HdrIs (pre₁ ++ [m']) ∧ HdrIs (n' :: post)) := by
    obtain ⟨m', n', mem', hextp, hk, hbytes, hm', hn', hmhdr, hnhdr'⟩ :=
      extpacket_spec (keeps_started mem g) hn hnext hm₁ hpost (hmlen₁ ▸ hj)
    have hbytes' : mem'.bytes (m' :: n' :: post) = mem.bytes (m :: post) := by
      rw [hbytes, Mem.bytes_cons, Mem.bytes_cons, hmlocs₁]
    have hpart : Parted mem c len0 (pre₁ ++ [m']) (n' :: post) mem' := by
      rw [hsplit]
      exact .around hk hpre hbytes' hlocs₁ hlen₁ hm' hsum
    refine ⟨m', n', mem', hextp, hpart, fun hne => ⟨hhdr m' hmhdr (hpart.len hne), ?_⟩⟩
    refine ⟨n', rfl, _, hnhdr'.trans hnhdr, ?_⟩
    have htotal : chainLen c = chainLen pre + (m.m_len + chainLen post) := by
      rw [hsplit, chainLen_append, chainLen_cons]
    simp only [chainLen_cons, hlen, htotal, hn', hmlen₁, hsum]
    omega
  cases he : m₁.m_ext with
  | some e =>
    obtain ⟨m', n', mem', hextp, hpart, hhdrs⟩ :=
      hend (tailHdr mem junk m0 ph0 len0) le_rfl rfl (tailHdr_pkthdr mem junk m0 ph0 len0)
    simp only [Option.isSome_some, if_true, hextp]
    exact ⟨_, _, _, rfl, hpart, hhdrs⟩
  | none =>
    have hfit : ¬ MHLEN < m₁.m_len - j := by
      rw [hmlen₁]
      exact not_lt.mpr (hsafe (hext₁ ▸ he))
    obtain ⟨m', n', mem', hextp, hpart, hhdrs⟩ :=
      hend (MH_ALIGN (tailHdr mem junk m0 ph0 len0) (m₁.m_len - j)) le_rfl rfl
        (tailHdr_pkthdr mem junk m0 ph0 len0)
    simp only [Option.isSome_none, Bool.false_eq_true, if_false, if_neg hfit, hextp]
    exact ⟨_, _, _, rfl, hpart, hhdrs⟩

theorem long_not_lead (hwf : ChainWf mem c) (hc : m0 ∈ c.head?) (hph : m0.m_pkthdr = some ph0)
    (hsplit : c = pre ++ m :: post) (hext : m.m_ext = none) (hlong : MHLEN < m.m_len - j) :
    m.m_pkthdr = none ∧ ∃ p pre', pre = p :: pre' := by
  have hmhdr : m.m_pkthdr = none := by
    obtain ⟨hlow, hhigh⟩ := hwf.storage m (by simp [hsplit])
    by_contra hmh
    obtain ⟨ph, hmh⟩ := Option.ne_none_iff_exists'.mp hmh
    simp only [Mbuf.base, Mbuf.limit, hext, hmh] at hlow hhigh
    have := PKTDAT_add_MHLEN
    omega
  refine ⟨hmhdr, List.exists_cons_of_ne_nil ?_⟩
  rintro rfl
  rw [hsplit] at hc
  obtain rfl : m = m0 := Option.some.inj hc
  rw [hmhdr] at hph
  cases hph

theorem m_split_long (i : ℕ) (hwf : ChainWf mem c) (hc : m0 ∈ c.head?)
    (hph : m0.m_pkthdr = some ph0) (hseek : seek c len0 = some (pre, m, post, j))
    (hsplit : c = pre ++ m :: post) (hsum : len0 = chainLen pre + j) (hj : j ≤ m.m_len)
    (hext : m.m_ext = none) (hlong : MHLEN < m.m_len - j) (hplenty : mem.Plenty)
    (hjunk : mem.grants 0 = some 1) :
    ∃ c' n mem', m_split (i + 2) mem c len0 = some (c', n, mem') ∧ n ≠ [] ∧
      chainLen c' + chainLen n = chainLen c + 1 := by
  rcases m_split_start (i + 1) hc hph hseek with ⟨mem', -, -, hno⟩ | ⟨junk, g, hg, hp, heq⟩
  · exact absurd hplenty hno
  obtain rfl : 1 = junk := Option.some.inj (hjunk.symm.trans hg)
  have hold := hwf.old
  have hk := keeps_started mem g
  obtain ⟨hmhdr, p, pre', rfl⟩ := long_not_lead hwf hc hph hsplit hext hlong
  rw [show i + 2 = i + 1 + 1 from rfl, heq]
  obtain ⟨mc, ns, mem', hrec, -, hpart⟩ := m_split_plain (m :: post) j i
    (fun k hk' => hk.old (hold k (by
      rw [hsplit]
      exact List.mem_append_right _ hk'))) (by simp)
    (by simp; omega) (by simpa using hmhdr)
  have hns := hpart.plenty (fun k => hp hplenty k) (by simp; omega)
  obtain ⟨n', tail, rfl⟩ := List.exists_cons_of_ne_nil hns
  simp only [setLead, hext, Option.isSome_none, Bool.false_eq_true, if_false, if_pos hlong, hrec]
  refine ⟨_, _, _, rfl, by simp, ?_⟩
  have hsize := congrArg List.length (hpart.bytes hns)
  have hone : (MH_ALIGN (tailHdr mem 1 m0 ph0 len0) 0).m_len = 1 := rfl
  have htotal : chainLen c = chainLen (p :: pre') + (m.m_len + chainLen post) := by
    rw [hsplit, chainLen_append, chainLen_cons m post]
  simp only [Mem.length_bytes, chainLen_append, chainLen_cons] at hsize
  simp only [chainLen_append, chainLen_cons, hone, htotal, Mbuf.setPktLen]
  omega

end Header

section Main

variable {mem : Mem} {c : List Mbuf} {len0 : ℕ}

/-- The outcome asked of `m_split`, whatever bound from two on is put on the depth of its calls: two
chains with the bytes of the first, whose headers hold their lengths, or the chain as it was. -/
def SplitOk (mem : Mem) (c : List Mbuf) (len0 : ℕ) : Prop :=
  ∀ i, ∃ c' n mem', m_split (i + 2) mem c len0 = some (c', n, mem') ∧
    (n ≠ [] → mem'.bytes c' ++ mem'.bytes n = mem.bytes c ∧ (mem'.bytes c').length = len0 ∧
      (HasHdr c → HdrIs c' ∧ HdrIs n)) ∧
    (n = [] → c' = c ∧ mem'.bytes c = mem.bytes c)

/-- The tail of the mbuf that is split fits an mbuf with a header, if it has to be copied to one. -/
def SplitSafe (c : List Mbuf) (len0 : ℕ) : Prop :=
  HasHdr c → ∀ pre m post j, seek c len0 = some (pre, m, post, j) → m.m_ext = none →
    m.m_len - j ≤ MHLEN

theorem splitOk_of_safe (hwf : ChainWf mem c) (hne : c ≠ []) (hhdr : HdrLen c)
    (hlen : len0 ≤ chainLen c) (hsafe : SplitSafe c len0) : SplitOk mem c len0 := by
  intro i
  have hclose {c' n : List Mbuf} {mem' : Mem} (hpart : Parted mem c len0 c' n mem')
      (hhdrs : n ≠ [] → HasHdr c → HdrIs c' ∧ HdrIs n) :
      (n ≠ [] → mem'.bytes c' ++ mem'.bytes n = mem.bytes c ∧ (mem'.bytes c').length = len0 ∧
        (HasHdr c → HdrIs c' ∧ HdrIs n)) ∧ (n = [] → c' = c ∧ mem'.bytes c = mem.bytes c) :=
    ⟨fun hn => ⟨by rw [← Mem.bytes_append, hpart.bytes hn], by rw [Mem.length_bytes, hpart.len hn],
      hhdrs hn⟩, fun hn => ⟨hpart.failed hn, hpart.keeps.bytes hwf.old⟩⟩
  obtain ⟨m0, c0, hc⟩ := List.exists_cons_of_ne_nil hne
  have hm0 : m0 ∈ c.head? := by simp [hc]
  cases hph : m0.m_pkthdr with
  | none =>
    have hplain : ∀ h ∈ c.head?, h.m_pkthdr = none := by
      intro h hh
      obtain rfl : m0 = h := Option.some.inj (hm0.symm.trans hh)
      exact hph
    obtain ⟨c', n, mem', heq, -, hpart⟩ := m_split_plain c len0 (i + 1) hwf.old hne hlen hplain
    refine ⟨c', n, mem', heq, hclose hpart ?_⟩
    rintro - ⟨h, hh, hne⟩
    exact absurd (hplain h hh) hne
  | some ph0 =>
    obtain ⟨pre, m, post, j, hseek, hsplit, hsum, hj⟩ := seek_spec hne hlen
    have hhas : HasHdr c := ⟨m0, hm0, by simp [hph]⟩
    obtain ⟨c', n, mem', heq, hpart, hhdrs⟩ := m_split_hdr (i + 1) hwf.old hm0 hph
      (hhdr m0 hm0 ph0 hph) hseek hsplit hsum hj (hsafe hhas pre m post j hseek)
    exact ⟨c', n, mem', heq, hclose hpart fun hn _ => hhdrs hn⟩

/-- `m_split` does what is asked of it for every pattern of allocations, and everything that a pool
item may contain, exactly when it need not call itself. -/
theorem m_split_correct (hwf : ChainWf mem c) (hne : c ≠ []) (hhdr : HdrLen c)
    (hlen : len0 ≤ chainLen c) :
    (∀ g, SplitOk (mem.withGrants g) c len0) ↔ SplitSafe c len0 := by
  constructor
  · rintro h ⟨m0, hm0, hph⟩ pre m post j hseek hext
    obtain ⟨ph0, hph⟩ := Option.ne_none_iff_exists'.mp hph
    obtain ⟨pre', m', post', j', hseek', hsplit, hsum, hj⟩ := seek_spec hne hlen
    rw [hseek] at hseek'
    cases hseek'
    by_contra hlong
    let g : ℕ → Option ℕ := fun _ => some 1
    obtain ⟨c', n, mem', heq, hn, hsize⟩ := m_split_long 0 (hwf.withGrants g) hm0 hph hseek hsplit
      hsum hj hext (not_le.mp hlong) (fun _ => by simp [Mem.withGrants, g]) rfl
    obtain ⟨c₁, n₁, mem₁, heq₁, hok, -⟩ := h g 0
    rw [heq] at heq₁
    cases heq₁
    have hbytes := congrArg List.length (hok hn).1
    simp only [List.length_append, Mem.length_bytes] at hbytes
    omega
  · intro hsafe g
    exact splitOk_of_safe (hwf.withGrants g) hne hhdr hlen hsafe

/-- A null result leaves the chain as it was, also after a call for a later mbuf. -/
theorem m_split_null (hwf : ChainWf mem c) (hne : c ≠ []) (hhdr : HdrLen c)
    (hlen : len0 ≤ chainLen c) {i : ℕ} {c' : List Mbuf} {mem' : Mem}
    (h : m_split (i + 2) mem c len0 = some (c', [], mem')) :
    c' = c ∧ mem'.bytes c = mem.bytes c := by
  by_cases hsafe : SplitSafe c len0
  · obtain ⟨c₁, n₁, mem₁, heq, -, hnull⟩ := splitOk_of_safe hwf hne hhdr hlen hsafe i
    rw [h] at heq
    cases heq
    exact hnull rfl
  simp only [SplitSafe, not_forall, not_le] at hsafe
  obtain ⟨⟨m0, hm0, hph⟩, pre, m, post, j, hseek, hext, hlong⟩ := hsafe
  obtain ⟨ph0, hph⟩ := Option.ne_none_iff_exists'.mp hph
  obtain ⟨pre', m', post', j', hseek', hsplit, hsum, hj⟩ := seek_spec hne hlen
  rw [hseek] at hseek'
  cases hseek'
  rcases m_split_start (i + 1) hm0 hph hseek with ⟨mem₁, heq, hk, -⟩ | ⟨junk, g, -, -, heq⟩
  · rw [h] at heq
    cases heq
    exact ⟨rfl, hk.bytes hwf.old⟩
  have hlead : m0 ∈ (pre ++ [m]).head? := head_append_singleton (hsplit ▸ hm0)
  have hback := setLead_restore hlead hph len0
  obtain ⟨hmhdr, p, pre', rfl⟩ := long_not_lead hwf hm0 hph hsplit hext hlong
  have hk := keeps_started mem g
  obtain ⟨mc, ns, mem₂, hrec, -, hpart⟩ := m_split_plain (m :: post) j i
    (fun k hk' => hk.old (hwf.old k (by
      rw [hsplit]
      exact List.mem_append_right _ hk'))) (by simp)
    (by simp; omega) (by simpa using hmhdr)
  rw [show i + 2 = i + 1 + 1 from rfl, heq] at h
  simp only [setLead] at hback
  simp only [setLead, hext, Option.isSome_none, Bool.false_eq_true, if_false, if_pos hlong,
    hrec] at h
  cases ns with
  | cons n' tail => simp at h
  | nil =>
    obtain rfl := hpart.failed rfl
    obtain ⟨rest, mem₃, hfree, hk₃⟩ := m_free_fresh
      (n := MH_ALIGN (tailHdr mem junk m0 ph0 len0) 0) (hk.trans hpart.keeps) le_rfl rfl
    simp only [hfree, Option.map_some, Option.some.injEq, Prod.mk.injEq, true_and] at h
    obtain ⟨rfl, rfl⟩ := h
    simp only [Prod.mk.injEq, and_true] at hback
    exact ⟨by rw [hback, hsplit], hk₃.bytes hwf.old⟩

def longTail : List Mbuf :=
  [⟨0, PKTDAT, 3, some ⟨203, []⟩, none, false⟩, ⟨1, 0, 200, none, none, false⟩]

theorem longTail_hdrLen : HdrLen longTail := by
  rintro m hm ph hph
  cases hm
  cases hph
  decide

def oneMbuf : Mem := roomy.withGrants fun i => if i = 0 then some 0 else none

/-- The header mbuf is allocated, and the call for the second mbuf finds no other. -/
theorem m_split_null_longTail :
    ∃ mem', m_split 2 oneMbuf longTail 10 = some (longTail, [], mem') ∧
      mem'.bytes longTail = oneMbuf.bytes longTail := by
  refine ⟨_, rfl, ?_⟩
  exact (@m_split_null oneMbuf longTail 10
    (.of_internal (by decide) (by decide) (by decide) (by decide) (by decide)) (by decide) longTail_hdrLen
    (by decide) 0 _ _ rfl).2

theorem m_split_correct_sevenBytes :
    ((∀ g, SplitOk (roomy.withGrants g) sevenBytes 5) ↔ SplitSafe sevenBytes 5) ∧
      SplitSafe sevenBytes 5 := by
  refine ⟨m_split_correct sevenBytes_wf (by decide) ?_ (by decide), ?_⟩
  · rintro m hm ph hph
    cases hm
    cases hph
    decide
  · rintro - pre m post j hseek -
    cases hseek
    decide

/-- The second chain has five bytes too many when the pool item had a length of five. -/
theorem m_split_stale_length :
    ∃ mem c, ChainWf mem c ∧ c ≠ [] ∧ HdrLen c ∧ 10 ≤ chainLen c ∧ ¬ SplitOk mem c 10 := by
  refine ⟨roomy.withGrants fun _ => some 5, longTail,
    .of_internal (by decide) (by decide) (by decide) (by decide) (by decide), by decide, longTail_hdrLen,
    by decide, ?_⟩
  · have hout : (m_split 2 (roomy.withGrants fun _ => some 5) longTail 10).map
        (fun r => (r.2.1.isEmpty, chainLen r.1 + chainLen r.2.1)) = some (false, 208) := by
      decide +kernel
    intro h
    obtain ⟨c', n, mem', heq, hok, -⟩ := h 0
    rw [heq] at hout
    simp only [Option.map_some, Option.some.injEq, Prod.mk.injEq] at hout
    have hn : n ≠ [] := by
      rintro rfl
      simp at hout
    have hbytes := congrArg List.length (hok hn).1
    rw [List.length_append, Mem.length_bytes, Mem.length_bytes, Mem.length_bytes, hout.2] at hbytes
    exact absurd hbytes (by decide)

end Main

end OpenbsdKernel.UipcMbuf
