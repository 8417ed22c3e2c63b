import OpenbsdKernel.Kern.Mbuf.Split

/-!
# Making room inside a chain

`m_inject` makes room for `siz` bytes behind position `len0`: before the data of the next
mbuf when that has the space, else in a new mbuf, behind which the rest of the mbuf at
the position follows as a deep copy. Nothing is changed before all allocations are made.
-/
namespace OpenbsdKernel.UipcMbuf

open Store

/-- `m->m_pkthdr.len += siz`. -/
def Mbuf.addPktLen (m : Mbuf) (siz : ℕ) : Mbuf :=
  { m with m_pkthdr := m.m_pkthdr.map fun ph => { ph with len := ph.len + siz } }

def growLead (siz : ℕ) : List Mbuf → List Mbuf
  | [] => []
  | h :: c => h.addPktLen siz :: c

/-- From the allocation of the mbuf on: `n2` is what follows it. -/
def injectNew (mem : Mem) (c pre : List Mbuf) (m : Mbuf) (post n2 : List Mbuf)
    (len siz : ℕ) : Option (List Mbuf × Option ℕ × Mem) :=
  match m_get mem with
  | (none, mem) => (m_freem mem n2).map fun mem => (c, none, mem)
  | (some n, mem) =>
    some (growLead siz (pre ++ { m with m_len := m.m_len - (m.m_len - len) } ::
      { n with m_len := siz } :: (n2 ++ post)), some n.addr, mem)

/-- `m_inject`: the chain afterwards and the address of the mbuf where the room starts. -/
def m_inject (mem : Mem) (c : List Mbuf) (len0 siz : ℕ) :
    Option (List Mbuf × Option ℕ × Mem) :=
  if MHLEN ≤ siz ∨ len0 = 0 then some (c, none, mem)
  else
    match seek c len0 with
    | none => some (c, none, mem)
    | some (pre, m, post, len) =>
      if m.m_len - len = 0 then
        match post with
        | [] => injectNew mem c pre m [] [] len siz
        | k :: post =>
          if siz ≤ m_leadingspace mem k then
            some (growLead siz
              (pre ++ m :: { k with m_len := k.m_len + siz, m_data := k.m_data - siz } :: post),
              some k.addr, mem)
          else injectNew mem c pre m (k :: post) [] len siz
      else
        match m_copym2 mem (m :: post) len (m.m_len - len) with
        | none => none
        | some ([], mem) => some (c, none, mem)
        | some (n2 :: n2', mem) => injectNew mem c pre m post (n2 :: n2') len siz

section Suffix

variable {mem : Mem} {pre c : List Mbuf}

theorem mem_wiped_append {m : Mbuf} (h : m ∈ wiped c) : m ∈ wiped (pre ++ c) := by
  induction pre with
  | nil => exact h
  | cons p pre ih =>
    cases hp : p.zeroize with
    | false => rwa [List.cons_append, wiped_cons_of_not hp]
    | true =>
      rw [List.cons_append, wiped_cons_of_zeroize hp]
      exact List.mem_cons_of_mem _ (List.mem_append_right _ (mem_of_mem_wiped h))

theorem ChainWf.suffix (h : ChainWf mem (pre ++ c)) : ChainWf mem c where
  storage m hm := h.storage m (List.mem_append_right _ hm)
  old m hm := h.old m (List.mem_append_right _ hm)
  addr := by
    have haddr := h.addr
    rw [List.map_append] at haddr
    exact haddr.of_append_right
  refs x := by
    have hrefs := h.refs x
    rw [users_append] at hrefs
    exact (Nat.le_add_left _ _).trans hrefs
  zeroize m hm := h.zeroize m (mem_wiped_append hm)
  short := by
    have hshort := h.short
    rw [chainLen_append] at hshort
    omega

end Suffix

section Copy

variable {mem : Mem} {c : List Mbuf} {off : ℕ}

theorem m_copym2_spec (len : ℕ) (hwf : ChainWf mem c) (hne : c ≠ []) (hoff : 0 < off)
    (hlen : off + len ≤ chainLen c) :
    ∃ top mem', m_copym2 mem c off len = some (top, mem') ∧ mem.Keeps mem' ∧
      (top ≠ [] → mem'.bytes top = ((mem.bytes c).drop off).take len) ∧
      (∀ n ∈ top, n.Old mem' ∧ n.zeroize = false) ∧ (∀ x, users x top ≤ mem'.refs x) ∧
      (mem.Plenty → 0 < len → top ≠ [] ∧ mem'.Plenty) := by
  obtain ⟨m0, m, src, o, hrun⟩ :=
    copyRun_exists hwf hne (Nat.le_of_add_right_le hlen) (.inr hlen) true
  have hno : copiesHdr off m0 = false := by simp [copiesHdr, hoff.ne']
  obtain ⟨ok, ns, mem', hloop, hcop⟩ := copyLoop_spec true m0 _ mem (m :: src) o len
    (copiesHdr off m0) hrun.copying (fun k hk => hwf.old k (hrun.suffix k hk)) (by simp [hno])
    hrun.fuel
  rw [m_copym2, hrun.eq]
  simp only [hloop]
  cases ok with
  | false =>
    obtain ⟨mem'', hfree, hk⟩ := hcop.released (by simp [hno])
    refine ⟨[], mem'', by simp only [hfree]; rfl, hk, by simp, by simp, by simp, fun hplenty => ?_⟩
    exact absurd (hcop.plenty hplenty).1 (by decide)
  | true =>
    refine ⟨ns, mem', rfl, hcop.keeps, fun _ => ?_, fun n hn => ⟨hcop.old n hn, ?_⟩, hcop.users_le,
      fun hplenty hpos => ⟨?_, (hcop.plenty hplenty).2⟩⟩
    · rw [hrun.bytes, hcop.bytes rfl]
    · exact hcop.plain hno n hn
    · obtain ⟨n, hn, -⟩ := hcop.head rfl hpos.ne' m rfl
      rintro rfl
      cases hn

end Copy

section Inject

/-- The outcome asked of `m_inject`: room for `siz` bytes at the returned mbuf, behind the first
`len0` bytes and in front of the others, or, when an allocation failed, the chain as it was. -/
def InjectOk (mem : Mem) (c : List Mbuf) (len0 siz : ℕ) : Prop :=
  ∃ c' ret mem', m_inject mem c len0 siz = some (c', ret, mem') ∧
    (∀ a, ret = some a → ∃ front n back, c' = front ++ n :: back ∧ n.addr = a ∧
      mem'.bytes front = (mem.bytes c).take len0 ∧ siz ≤ n.m_len ∧
      (mem'.bytes (n :: back)).drop siz = (mem.bytes c).drop len0 ∧
      ∀ h ∈ c.head?, ∃ h' ∈ c'.head?,
        h'.m_pkthdr = h.m_pkthdr.map fun ph => { ph with len := ph.len + siz }) ∧
    (ret = none → c' = c ∧ mem'.bytes c = mem.bytes c ∧ ¬ mem.Plenty)

variable {mem₀ mem : Mem} {c pre post n2 : List Mbuf} {m : Mbuf} {len0 len siz : ℕ}

theorem growLead_append (siz : ℕ) (pre : List Mbuf) (m : Mbuf) (rest : List Mbuf) :
    growLead siz (pre ++ m :: rest) = growLead siz (pre ++ [m]) ++ rest := by
  cases pre <;> simp [growLead]

theorem growLead_locs (siz : ℕ) (c : List Mbuf) : chainLocs (growLead siz c) = chainLocs c := by
  cases c <;> rfl

theorem growLead_head {m' : Mbuf} (hm' : m'.m_pkthdr = m.m_pkthdr) {h : Mbuf}
    (hh : h ∈ (pre ++ m :: post).head?) (rest : List Mbuf) :
    ∃ h' ∈ (growLead siz (pre ++ m' :: rest)).head?,
      h'.m_pkthdr = h.m_pkthdr.map fun ph => { ph with len := ph.len + siz } := by
  cases pre with
  | nil =>
    obtain rfl : m = h := Option.some.inj hh
    exact ⟨m'.addPktLen siz, rfl, by simp only [Mbuf.addPktLen, hm']⟩
  | cons p pre =>
    obtain rfl : p = h := Option.some.inj hh
    exact ⟨p.addPktLen siz, rfl, rfl⟩

theorem seek_pos {c : List Mbuf} {len i : ℕ} {pre post : List Mbuf} {m : Mbuf}
    (h : seek c len = some (pre, m, post, i)) (hlen : 0 < len) : 0 < i := by
  induction c generalizing len pre with
  | nil => cases h
  | cons k c ih =>
    unfold seek at h
    split_ifs at h with hk
    · obtain ⟨⟨pre', m', post', i'⟩, hseek, heq⟩ := Option.map_eq_some_iff.mp h
      simp only [Prod.mk.injEq] at heq
      obtain ⟨-, rfl, rfl, rfl⟩ := heq
      exact ih hseek (by omega)
    · cases h
      exact hlen

theorem bytes_seek (mem : Mem) (post : List Mbuf) (hsum : len0 = chainLen pre + len) (hlen : len ≤ m.m_len) :
    (mem.bytes (pre ++ m :: post)).take len0 =
        mem.bytes pre ++ mem.store.read (region m.buf m.m_data len) ∧
      (mem.bytes (pre ++ m :: post)).drop len0 =
        (mem.store.read m.locs).drop len ++ mem.bytes post := by
  have hpre : (mem.bytes pre).length = chainLen pre := mem.length_bytes pre
  constructor
  · rw [Mem.bytes_append, hsum, Mem.bytes_cons, List.take_append, hpre,
      List.take_of_length_le (by omega), Nat.add_sub_cancel_left,
      List.take_append_of_le_length (by simpa using hlen), ← read_take, Mbuf.locs, take_region,
      min_eq_left hlen]
  · rw [Mem.bytes_append, hsum, Mem.bytes_cons, ← List.drop_drop, List.drop_left' hpre,
      List.drop_append_of_le_length (by simpa using hlen)]

theorem injectNew_spec (hk : mem₀.Keeps mem) (hold : ∀ k ∈ pre ++ m :: post, k.Old mem₀)
    (hsum : len0 = chainLen pre + len) (hlen : len ≤ m.m_len)
    (hbytes : mem.bytes n2 = (mem₀.store.read m.locs).drop len)
    (hn2 : ∀ n ∈ n2, n.Old mem ∧ n.zeroize = false) (hrefs : ∀ x, users x n2 ≤ mem.refs x)
    (hplenty : mem₀.Plenty → mem.Plenty) :
    ∃ c' ret mem',
      injectNew mem (pre ++ m :: post) pre m post n2 len siz = some (c', ret, mem') ∧
      (∀ a, ret = some a → ∃ front n back, c' = front ++ n :: back ∧ n.addr = a ∧
        mem'.bytes front = (mem₀.bytes (pre ++ m :: post)).take len0 ∧ siz ≤ n.m_len ∧
        (mem'.bytes (n :: back)).drop siz = (mem₀.bytes (pre ++ m :: post)).drop len0 ∧
        ∀ h ∈ (pre ++ m :: post).head?, ∃ h' ∈ c'.head?,
          h'.m_pkthdr = h.m_pkthdr.map fun ph => { ph with len := ph.len + siz }) ∧
      (ret = none → c' = pre ++ m :: post ∧
        mem'.bytes (pre ++ m :: post) = mem₀.bytes (pre ++ m :: post) ∧ ¬ mem₀.Plenty) := by
  unfold injectNew
  rcases m_get_cases mem with ⟨hg, hget⟩ | ⟨junk, hg, hget⟩
  · simp only [hget]
    have hno : wiped n2 = [] := wiped_eq_nil fun n hn => (hn2 n hn).2
    have hown : ZeroizeOwned mem.advance n2 := fun n hn => by rw [hno] at hn; cases hn
    obtain ⟨mem', hfree, hr⟩ := m_freem_spec hown hrefs
    have hk' : mem₀.Keeps mem' := by
      refine ⟨hk.next.trans hr.next.ge, hk.nextcl.trans hr.nextcl.ge, fun b i hb => ?_⟩
      rw [hr.store b (by simp [hno]) i]
      exact hk.store b i hb
    exact ⟨pre ++ m :: post, none, mem', by simp only [hfree]; rfl, by simp,
      fun _ => ⟨rfl, hk'.bytes hold, fun h => hplenty h 0 hg⟩⟩
  simp only [hget]
  obtain ⟨htake, hdrop⟩ := bytes_seek mem₀ post hsum hlen
  let mem' : Mem := { mem.advance with next := mem.next + 1 }
  have hk' : mem₀.Keeps mem' := hk.trans (keeps_next mem)
  refine ⟨_, _, mem', rfl, ?_, by simp⟩
  rintro a ⟨⟩
  refine ⟨growLead siz (pre ++ [{ m with m_len := m.m_len - (m.m_len - len) }]),
    { mem.plain junk with m_len := siz }, n2 ++ post, growLead_append _ _ _ _, rfl, ?_, le_rfl, ?_,
    ?_⟩
  · have hlocs : ({ m with m_len := m.m_len - (m.m_len - len) } : Mbuf).locs =
        region m.buf m.m_data len := by
      simp only [Mbuf.locs, Nat.sub_sub_self hlen]
      rfl
    rw [htake, Mem.bytes, growLead_locs, chainLocs_append, chainLocs_cons, hlocs, chainLocs_nil,
      List.append_nil, read_append]
    have hpre := hk'.bytes fun k hk => hold k (List.mem_append_left _ hk)
    have hpart : mem'.store.read (region m.buf m.m_data len) =
        mem₀.store.read (region m.buf m.m_data len) := by
      refine hk'.read fun l hl => ?_
      rw [(mem_region.mp hl).1]
      exact (hold m (by simp)).buf
    rw [← hpre, hpart]
    rfl
  · have hpost := hk'.bytes fun k (hk : k ∈ post) => hold k (by simp [hk])
    rw [hdrop, Mem.bytes_cons, List.drop_left' (by rw [length_read, Mbuf.length_locs]),
      Mem.bytes_append, hpost, ← hbytes]
    rfl
  · intro h hh
    have hsame : ({ m with m_len := m.m_len - (m.m_len - len) } : Mbuf).m_pkthdr = m.m_pkthdr := rfl
    exact growLead_head hsame hh _

theorem m_leadingspace_le (mem : Mem) (k : Mbuf) : m_leadingspace mem k ≤ k.m_data := by
  unfold m_leadingspace
  split_ifs
  · exact Nat.zero_le _
  · exact Nat.sub_le _ _

theorem injectSpace_spec {k : Mbuf} (hsum : len0 = chainLen pre + m.m_len)
    (hspace : siz ≤ m_leadingspace mem k) :
    ∃ c' ret mem',
      some (growLead siz
        (pre ++ m :: { k with m_len := k.m_len + siz, m_data := k.m_data - siz } :: post),
        some k.addr, mem) = some (c', ret, mem') ∧
      (∀ a, ret = some a → ∃ front n back, c' = front ++ n :: back ∧ n.addr = a ∧
        mem'.bytes front = (mem.bytes (pre ++ m :: k :: post)).take len0 ∧ siz ≤ n.m_len ∧
        (mem'.bytes (n :: back)).drop siz = (mem.bytes (pre ++ m :: k :: post)).drop len0 ∧
        ∀ h ∈ (pre ++ m :: k :: post).head?, ∃ h' ∈ c'.head?,
          h'.m_pkthdr = h.m_pkthdr.map fun ph => { ph with len := ph.len + siz }) ∧
      (ret = none → c' = pre ++ m :: k :: post ∧
        mem'.bytes (pre ++ m :: k :: post) = mem.bytes (pre ++ m :: k :: post) ∧ ¬ mem.Plenty) := by
  obtain ⟨htake, hdrop⟩ := bytes_seek mem (k :: post) hsum le_rfl
  have hdata := hspace.trans (m_leadingspace_le mem k)
  refine ⟨_, _, mem, rfl, ?_, by simp⟩
  rintro a ⟨⟩
  refine ⟨growLead siz (pre ++ [m]), { k with m_len := k.m_len + siz, m_data := k.m_data - siz },
    post, growLead_append _ _ _ _, rfl, ?_, Nat.le_add_left _ _, ?_, fun h hh => ?_⟩
  · rw [htake, Mem.bytes, growLead_locs, chainLocs_append, read_append]
    simp [Mem.bytes, Mbuf.locs]
  · have hlocs : ({ k with m_len := k.m_len + siz, m_data := k.m_data - siz } : Mbuf).locs.drop siz =
        k.locs := by
      rw [Mbuf.locs, drop_region]
      simp only [Nat.sub_add_cancel hdata, Nat.add_sub_cancel]
      rfl
    have hnil : (mem.store.read m.locs).drop m.m_len = [] := List.drop_of_length_le (by simp)
    rw [hdrop, hnil, List.nil_append, Mem.bytes_cons, Mem.bytes_cons,
      List.drop_append_of_le_length (by simp), ← read_drop, hlocs]
  · exact growLead_head rfl hh _

/-- `m_inject` makes the room that is asked for or leaves the chain as it was. -/
theorem m_inject_correct (hwf : ChainWf mem c) (hlen0 : 0 < len0) (hlen : len0 ≤ chainLen c)
    (hsiz : siz < MHLEN) : InjectOk mem c len0 siz := by
  have hne : c ≠ [] := by
    rintro rfl
    simp at hlen
    omega
  obtain ⟨pre, m, post, i, hseek, hsplit, hsum, hi⟩ := seek_spec hne hlen
  have hpos := seek_pos hseek hlen0
  have hmwf : ChainWf mem (m :: post) := (hsplit ▸ hwf).suffix
  have hargs : ¬ (MHLEN ≤ siz ∨ len0 = 0) := by omega
  unfold InjectOk m_inject
  rw [if_neg hargs]
  simp only [hseek]
  rw [hsplit]
  have hold : ∀ k ∈ pre ++ m :: post, k.Old mem := hsplit ▸ hwf.old
  by_cases hrem : m.m_len - i = 0
  · rw [if_pos hrem]
    have hnil : mem.bytes [] = (mem.store.read m.locs).drop i := by
      rw [List.drop_of_length_le (by simp; omega), Mem.bytes_nil]
    cases post with
    | nil => exact injectNew_spec (.refl mem) hold hsum hi hnil (by simp) (by simp) id
    | cons k post =>
      by_cases hspace : siz ≤ m_leadingspace mem k
      · simp only [if_pos hspace]
        obtain rfl : i = m.m_len := by omega
        exact injectSpace_spec hsum hspace
      · simp only [if_neg hspace]
        exact injectNew_spec (.refl mem) hold hsum hi hnil (by simp) (by simp) id
  · rw [if_neg hrem]
    obtain ⟨top, mem', hcopy, hk, hbytes, htop, hrefs, hplenty⟩ :=
      m_copym2_spec (m.m_len - i) hmwf (by simp) hpos (by simp; omega)
    simp only [hcopy]
    cases top with
    | nil =>
      exact ⟨_, none, mem', rfl, by simp,
        fun _ => ⟨rfl, hk.bytes hold, fun h => (hplenty h (Nat.pos_of_ne_zero hrem)).1 rfl⟩⟩
    | cons n n2 =>
      refine injectNew_spec hk hold hsum hi ?_ htop hrefs
        fun h => (hplenty h (Nat.pos_of_ne_zero hrem)).2
      rw [hbytes (by simp), Mem.bytes_cons, List.drop_append_of_le_length (by simpa using hi),
        List.take_append_of_le_length (by simp), List.take_of_length_le (by simp)]

/-- The room starts at a new mbuf inside the second mbuf. -/
theorem m_inject_correct_sevenBytes :
    InjectOk roomy sevenBytes 5 8 ∧ ∃ c' a mem', m_inject roomy sevenBytes 5 8 = some (c', some a, mem') := by
  have h := @m_inject_correct roomy sevenBytes 5 8 sevenBytes_wf (by decide) (by decide) (by decide)
  refine ⟨h, ?_⟩
  obtain ⟨c', ret, mem', hrun, -, hnone⟩ := h
  cases ret with
  | some a => exact ⟨c', a, mem', hrun⟩
  | none => exact absurd (fun _ => Option.some_ne_none 0) (hnone rfl).2.2

end Inject

end OpenbsdKernel.UipcMbuf
