import OpenbsdKernel.Kern.Mbuf.CopyChain

/-!
# Where a copied chain stays within its storage

The new mbuf that takes the packet header has room for `MHLEN` bytes, but when the first
mbufs of the source are empty its data comes from a later mbuf, which may hold more. A
header with `M_ZEROIZE` hands the flag to its copy: when a later allocation fails, a
shallow copy is then freed with storage that still belongs to the source.
-/
namespace OpenbsdKernel.UipcMbuf

open Store

theorem m_getptr_spec {c : List Mbuf} {loc : ℕ} (hne : c ≠ []) (hloc : loc ≤ chainLen c) :
    ∃ pre m src off, m_getptr c loc = some (m :: src, off) ∧ c = pre ++ m :: src ∧
      loc = chainLen pre + off ∧ off ≤ m.m_len := by
  induction c generalizing loc with
  | nil => exact absurd rfl hne
  | cons m c ih =>
    unfold m_getptr
    by_cases h : loc < m.m_len
    · exact ⟨[], m, c, loc, by rw [if_pos h], rfl, by simp, h.le⟩
    rw [if_neg h]
    cases c with
    | nil =>
      have : loc = m.m_len := by
        simp at hloc
        omega
      exact ⟨[], m, [], m.m_len, by simp [this], rfl, by simpa using this, le_rfl⟩
    | cons n c =>
      rw [chainLen_cons] at hloc
      obtain ⟨pre, k, src, off, hget, hsplit, hsum, hoff⟩ :=
        ih (by simp) (show loc - m.m_len ≤ chainLen (n :: c) by omega)
      refine ⟨m :: pre, k, src, off, hget, by simp [hsplit], ?_, hoff⟩
      rw [chainLen_cons]
      omega

section Wanted

variable {mem : Mem} {c : List Mbuf} {off len : ℕ}

def wanted (mem : Mem) (c : List Mbuf) (off len : ℕ) : List UInt8 :=
  if len = M_COPYALL then (mem.bytes c).drop off else ((mem.bytes c).drop off).take len

end Wanted

section Released

variable {deep : Bool} {m0 : Mbuf} {mem mem' : Mem} {src ns : List Mbuf} {off len : ℕ}
  {copyhdr ok : Bool}

theorem Copied.users_le (h : Copied deep m0 mem src off len copyhdr ok ns mem') (x : ℕ) :
    users x ns ≤ mem'.refs x := by
  rcases lt_or_ge x mem.nextcl with hx | hx
  · rw [h.refs_old x hx]
    exact Nat.le_add_left _ _
  · rcases lt_or_ge x mem'.nextcl with hx' | hx'
    · exact (h.refs_new x hx hx').ge
    · rw [users_eq_zero_of_old h.old hx']
      exact Nat.zero_le _

theorem Copied.released (h : Copied deep m0 mem src off len copyhdr false ns mem')
    (hsafe : copyhdr = true → m0.zeroize = true → deep = false → ¬ Exposed src off len) :
    ∃ mem'', m_freem mem' ns = some mem'' ∧ mem.Keeps mem'' := by
  have hwiped : ∀ n ∈ wiped ns,
      mem'.M_READONLY n = false ∧ ¬ mem.Old n.buf := by
    intro n hn
    have hns := mem_of_mem_wiped hn
    have hz : copyhdr = true ∧ m0.zeroize = true := by
      constructor
      · by_contra hc
        rw [wiped_eq_nil (h.plain (by simpa using hc))] at hn
        cases hn
      · by_contra hc
        rw [wiped_eq_nil (h.zeroize (by simpa using hc))] at hn
        cases hn
    cases hext : n.m_ext with
    | none =>
      have hbuf : n.buf = .dat n.addr := by simp [Mbuf.buf, hext]
      refine ⟨by simp [Mem.M_READONLY, hext], ?_⟩
      rw [hbuf]
      exact not_lt.mpr (h.fresh n hns)
    | some e =>
      cases deep with
      | false => exact absurd (h.shared rfl rfl n hns (by simp [hext])) (hsafe hz.1 hz.2 rfl)
      | true =>
        obtain ⟨hge, hwr, hone⟩ := h.owned rfl n hns e hext
        have hbuf : n.buf = .ext e.ext_buf := by simp [Mbuf.buf, hext]
        constructor
        · rw [M_READONLY_eq_false]
          intro e' he'
          obtain rfl := Option.some.inj (hext.symm.trans he')
          exact ⟨hwr, by rw [h.refs_new _ hge ((h.old n hns).2 e hext), hone]⟩
        · rw [hbuf]
          exact not_lt.mpr hge
  obtain ⟨mem'', hfree, hr⟩ := m_freem_spec (fun n hn => (hwiped n hn).1) h.users_le
  refine ⟨mem'', hfree, h.keeps.next.trans hr.next.ge, h.keeps.nextcl.trans hr.nextcl.ge,
    fun b i hb => ?_⟩
  rw [hr.store b (fun n hn he => (hwiped n hn).2 (he ▸ hb)), h.keeps.store b i hb]

end Released

section Panic

variable {m0 : Mbuf}

end Panic

section Main

variable {mem : Mem} {c : List Mbuf} {off len : ℕ} {deep : Bool}

theorem ChainWf.withGrants (h : ChainWf mem c) (g : ℕ → Option ℕ) : ChainWf (mem.withGrants g) c :=
  ⟨h.storage, h.old, h.addr, h.refs, h.zeroize, h.short⟩

def copiesHdr (off : ℕ) (m0 : Mbuf) : Bool := decide (off = 0) && m0.m_pkthdr.isSome

/-- A run of `m_copym0` within the chain. -/
structure CopyRun (mem : Mem) (c : List Mbuf) (off len : ℕ) (deep : Bool) (m0 m : Mbuf)
    (src : List Mbuf) (o : ℕ) : Prop where
  head : c.head? = some m0
  getptr : m_getptr c off = some (m :: src, o)
  suffix : ∀ k ∈ m :: src, k ∈ c
  copying : Copying (m :: src) o len
  fuel : chainLen (m :: src) - o + (m :: src).length < chainLen (m :: src) + (m :: src).length + 1
  bytes : (mem.bytes c).drop off = (mem.bytes (m :: src)).drop o
  eq : m_copym0 mem c off len deep =
    match copyLoop deep m0 (chainLen (m :: src) + (m :: src).length + 1) mem (m :: src) o len
      (copiesHdr off m0) with
    | none => none
    | some (true, top, mem) => some (top, mem)
    | some (false, top, mem) => (m_freem mem top).map fun mem => ([], mem)

theorem copyRun_exists (hwf : ChainWf mem c) (hne : c ≠ []) (hoff : off ≤ chainLen c)
    (hlen : len = M_COPYALL ∨ off + len ≤ chainLen c) (deep : Bool) :
    ∃ m0 m src o, CopyRun mem c off len deep m0 m src o := by
  obtain ⟨pre, m, src, o, hget, hsplit, hsum, ho⟩ := m_getptr_spec hne hoff
  obtain ⟨m0, c', rfl⟩ := List.exists_cons_of_ne_nil hne
  have hshort := hwf.short
  have htotal : chainLen (m0 :: c') = chainLen pre + chainLen (m :: src) := by
    rw [hsplit, chainLen_append]
  refine ⟨m0, m, src, o, rfl, hget, fun k hk => ?_, ⟨?_, by simp, ?_, by omega⟩, by omega, ?_, ?_⟩
  · rw [hsplit]
    exact List.mem_append_right _ hk
  · intro k hk
    obtain rfl : m = k := Option.some.inj hk
    exact ho
  · exact hlen.imp_right fun h => by omega
  · rw [hsplit, Mem.bytes_append, hsum, ← List.drop_drop, List.drop_left' (by simp)]
  · simp only [m_copym0, hget]
    rfl

/-- Memory with a few mbufs in it and enough to allocate from. -/
def roomy : Mem :=
  { store := fun _ i => i.toUInt8, refs := fun _ => 0, next := 4, nextcl := 0,
    grants := fun _ => some 0, freed := [] }

def sevenBytes : List Mbuf :=
  [⟨0, PKTDAT, 3, some ⟨7, []⟩, none, false⟩, ⟨1, 0, 4, none, none, false⟩]

theorem sevenBytes_wf : ChainWf roomy sevenBytes :=
  .of_internal (by decide) (by decide) (by decide) (by decide) (by decide)

end Main

end OpenbsdKernel.UipcMbuf
