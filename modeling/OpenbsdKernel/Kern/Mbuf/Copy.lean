import OpenbsdKernel.Kern.Mbuf.Memory

/-!
# Copying a chain

`m_copym0` makes one new mbuf in every iteration. The first one takes over the packet
header where there is one to copy, which leaves it a smaller data area; the data comes
from wherever `m_getptr` found the offset. External storage is shared by a shallow copy
and goes into clusters, or into the new mbuf when there is no cluster, in a deep one.
-/
namespace OpenbsdKernel.UipcMbuf

open Store

/-- `n->m_pkthdr.len = len`. -/
def Mbuf.setPktLen (m : Mbuf) (len : ℤ) : Mbuf :=
  { m with m_pkthdr := m.m_pkthdr.map fun ph => { ph with len := len } }

/-- The header of the first new mbuf; the flag of the result is set on an error. -/
def copyHeader (mem : Mem) (n m0 : Mbuf) (len : ℕ) (copyhdr : Bool) :
    Option (Bool × Mbuf × Mem) :=
  if copyhdr then
    match m_dup_pkthdr mem n m0 with
    | none => none
    | some (true, n, mem) => some (true, n, mem)
    | some (false, n, mem) =>
      some (false, if len ≠ M_COPYALL then n.setPktLen len else n, mem)
  else some (false, n, mem)

/-- The data of one new mbuf `n` from `m` at `off`. -/
def copyData (deep : Bool) (mem : Mem) (m n : Mbuf) (off len : ℕ) : Option (Mbuf × Mem) :=
  let n := { n with m_len := min len (m.m_len - off) }
  match m.m_ext, deep with
  | none, _ => some (n, mem.memcpy n.buf n.m_data m.buf (m.m_data + off) n.m_len)
  | some _, false => some (m_extref mem m { n with m_data := m.m_data + off })
  | some _, true =>
    match m_clget mem n MCLBYTES with
    | none => none
    | some (n, mem) =>
      let n := { n with m_len := 0 }
      let n := { n with m_len := min (min (m_trailingspace mem n) len) (m.m_len - off) }
      some (n, mem.memcpy n.buf n.m_data m.buf (m.m_data + off) n.m_len)

example (mem : Mem) (m n : Mbuf) (off len : ℕ) (h : m.m_ext = none) :
    (copyData true mem m n off len).isSome := by
  simp [copyData, h]

/-- Where the loop goes on after `k` bytes of `m`. -/
def copyNext (m : Mbuf) (c : List Mbuf) (off k : ℕ) : List Mbuf × ℕ :=
  if off + k = m.m_len then (c, 0) else (m :: c, off + k)

/-- What is left to copy after `k` bytes. -/
def lenLeft (len k : ℕ) : ℕ := if len = M_COPYALL then len else len - k

/-- The loop of `m_copym0`: whether it got to its end, the new mbufs, and the memory. -/
def copyLoop (deep : Bool) (m0 : Mbuf) :
    ℕ → Mem → List Mbuf → ℕ → ℕ → Bool → Option (Bool × List Mbuf × Mem)
  | 0, _, _, _, _, _ => none
  | i + 1, mem, src, off, len, copyhdr =>
    if len = 0 then some (true, [], mem)
    else
      match src with
      | [] => if len = M_COPYALL then some (true, [], mem) else none
      | m :: c =>
        match m_get mem with
        | (none, mem) => some (false, [], mem)
        | (some n, mem) =>
          match copyHeader mem n m0 len copyhdr with
          | none => none
          | some (true, n, mem) => some (false, [n], mem)
          | some (false, n, mem) =>
            match copyData deep mem m n off len with
            | none => none
            | some (n, mem) =>
              if m.m_len < off + n.m_len then none
              else
                let next := copyNext m c off n.m_len
                match copyLoop deep m0 i mem next.1 next.2 (lenLeft len n.m_len) false with
                | none => none
                | some (ok, ns, mem) => some (ok, n :: ns, mem)

example (deep : Bool) (m0 : Mbuf) (mem : Mem) (src : List Mbuf) (off : ℕ) :
    copyLoop deep m0 1 mem src off 0 false = some (true, [], mem) := by
  simp [copyLoop]

/-- `m_copym0`; the loop goes on from one mbuf to the next or copies a byte. -/
def m_copym0 (mem : Mem) (c : List Mbuf) (off len : ℕ) (deep : Bool) :
    Option (List Mbuf × Mem) :=
  match c with
  | [] => none
  | m0 :: _ =>
    let copyhdr := decide (off = 0) && m0.m_pkthdr.isSome
    match m_getptr c off with
    | none => none
    | some (src, off) =>
      match copyLoop deep m0 (chainLen src + src.length + 1) mem src off len copyhdr with
      | none => none
      | some (true, top, mem) => some (top, mem)
      | some (false, top, mem) => (m_freem mem top).map fun mem => ([], mem)

def m_copym2 (mem : Mem) (c : List Mbuf) (off len : ℕ) : Option (List Mbuf × Mem) :=
  m_copym0 mem c off len true

section Data

/-- A new mbuf before its data is in place: no external storage, data at the start. -/
structure Blank (mem₀ mem : Mem) (n : Mbuf) : Prop where
  keeps : mem₀.Keeps mem
  fresh : mem₀.next ≤ n.addr
  exists_ : n.addr < mem.next
  ext : n.m_ext = none
  data : n.m_data = n.base

/-- One new mbuf with its data, seen from the memory `mem₀` before its allocation and the
memory `mem` before its data was copied. -/
structure DataCopied (deep : Bool) (mem₀ mem : Mem) (m n : Mbuf) (off len : ℕ)
    (n' : Mbuf) (mem' : Mem) : Prop where
  addr : n'.addr = n.addr
  pkthdr : n'.m_pkthdr = n.m_pkthdr
  zeroize : n'.zeroize = n.zeroize
  keeps : mem₀.Keeps mem'
  old : n'.Old mem'
  len_le : n'.m_len ≤ min len (m.m_len - off)
  progress : 0 < len → off < m.m_len → 0 < n'.m_len
  full : deep = false → n'.m_len = min len (m.m_len - off)
  bytes : mem'.store.read n'.locs = ((mem₀.store.read m.locs).drop off).take n'.m_len
  storage : m.InStorage → (m.m_ext = none → min len (m.m_len - off) ≤ MLEN - n.base) →
    n'.InStorage
  plenty : mem.Plenty → mem'.Plenty
  nextcl : mem.nextcl ≤ mem'.nextcl
  refs_old : ∀ x < mem.nextcl, mem'.refs x = mem.refs x + users x [n']
  refs_new : ∀ x, mem.nextcl ≤ x → x < mem'.nextcl → mem'.refs x = users x [n']
  owned : deep = true → ∀ e, n'.m_ext = some e → mem.nextcl ≤ e.ext_buf ∧ e.extwr = true
  shared : deep = false → n'.m_ext = m.m_ext
  plain : m.m_ext = none → n'.m_ext = none ∧ n'.m_len = min len (m.m_len - off)

variable {deep : Bool} {mem₀ mem : Mem} {m n : Mbuf} {off len : ℕ}

theorem Blank.notOld (h : Blank mem₀ mem n) : ¬ mem₀.Old n.buf := by
  unfold Mbuf.buf
  rw [h.ext]
  exact not_lt.mpr h.fresh

theorem read_part (s : Store Buf UInt8) (m : Mbuf) {off k : ℕ} (h : k ≤ m.m_len - off) :
    s.read (region m.buf (m.m_data + off) k) = ((s.read m.locs).drop off).take k := by
  rw [Mbuf.locs, ← read_drop, drop_region, ← read_take, take_region, min_eq_left h]

theorem copied_bytes (hk : mem₀.Keeps mem) (hm : m.Old mem₀) (n' : Mbuf)
    (hlen : n'.m_len ≤ m.m_len - off) :
    (mem.memcpy n'.buf n'.m_data m.buf (m.m_data + off) n'.m_len).store.read n'.locs =
      ((mem₀.store.read m.locs).drop off).take n'.m_len := by
  have hsrc : mem.store.read (region m.buf (m.m_data + off) n'.m_len) =
      ((mem₀.store.read m.locs).drop off).take n'.m_len := by
    rw [read_part _ _ hlen, hk.read hm.locs]
  exact (read_copyin_self _ _ _ _ _ (by simp)).trans hsrc

theorem users_singleton_of_none {n : Mbuf} (h : n.m_ext = none) (x : ℕ) : users x [n] = 0 := by
  rw [users_cons, if_neg (by simp [buf_eq_ext, h]), users_nil]

theorem users_singleton_of_some {n : Mbuf} {e : Ext} (h : n.m_ext = some e) (x : ℕ) :
    users x [n] = if e.ext_buf = x then 1 else 0 := by
  simp [users_cons, buf_eq_ext, h]

theorem copyData_plain (hn : Blank mem₀ mem n) (hm : m.Old mem₀) (hext : m.m_ext = none) :
    ∃ n' mem', copyData deep mem m n off len = some (n', mem') ∧
      DataCopied deep mem₀ mem m n off len n' mem' := by
  let n' : Mbuf := { n with m_len := min len (m.m_len - off) }
  have hext' : n'.m_ext = none := hn.ext
  refine ⟨n', mem.memcpy n'.buf n'.m_data m.buf (m.m_data + off) n'.m_len, ?_, ?_⟩
  · simp only [copyData, hext, n']
  · exact {
      addr := rfl
      pkthdr := rfl
      zeroize := rfl
      keeps := hn.keeps.copyin hn.notOld _ _
      old := ⟨hn.exists_, fun e he => by rw [hext'] at he; cases he⟩
      len_le := le_rfl
      progress := fun hlen hoff => lt_min hlen (Nat.sub_pos_of_lt hoff)
      full := fun _ => rfl
      bytes := copied_bytes hn.keeps hm n' (min_le_right _ _)
      storage := fun _ hfit => by
        have hbase : n.base ≤ MLEN := by
          unfold Mbuf.base
          rw [hn.ext]
          cases n.m_pkthdr <;> simp [PKTDAT, MLEN]
        have hlimit : n'.limit = MLEN := by simp [Mbuf.limit, hext']
        have hfit := hfit hext
        refine ⟨hn.data.ge, ?_⟩
        rw [hlimit]
        change n.m_data + min len (m.m_len - off) ≤ MLEN
        rw [hn.data]
        omega
      plenty := id
      nextcl := le_rfl
      refs_old := fun x _ => by rw [users_singleton_of_none hext']; rfl
      refs_new := fun x hx hx' => absurd hx' (not_lt.mpr hx)
      owned := fun _ e he => by rw [hext'] at he; cases he
      shared := fun _ => hext'.trans hext.symm
      plain := fun _ => ⟨hext', rfl⟩ }

theorem copyData_shallow (hn : Blank mem₀ mem n) (hm : m.Old mem₀) {e : Ext}
    (hext : m.m_ext = some e) (hoff : off ≤ m.m_len) :
    ∃ n' mem', copyData false mem m n off len = some (n', mem') ∧
      DataCopied false mem₀ mem m n off len n' mem' := by
  let n' : Mbuf :=
    { n with m_len := min len (m.m_len - off), m_data := m.m_data + off, m_ext := some e }
  have hbuf : n'.buf = m.buf := by simp [Mbuf.buf, hext, n']
  have hx : e.ext_buf < mem.nextcl := lt_of_lt_of_le (hm.2 e hext) hn.keeps.nextcl
  refine ⟨n', { mem with refs := Function.update mem.refs e.ext_buf (mem.refs e.ext_buf + 1) },
    ?_, ?_⟩
  · simp only [copyData, hext, m_extref, n']
  · exact {
      addr := rfl
      pkthdr := rfl
      zeroize := rfl
      keeps := ⟨hn.keeps.next, hn.keeps.nextcl, hn.keeps.store⟩
      old := ⟨hn.exists_, fun e' he => by obtain rfl := Option.some.inj he; exact hx⟩
      len_le := le_rfl
      progress := fun hlen hoff => lt_min hlen (Nat.sub_pos_of_lt hoff)
      full := fun _ => rfl
      bytes := by
        rw [← hn.keeps.read hm.locs, Mbuf.locs, hbuf]
        exact read_part mem.store m (min_le_right _ _)
      storage := fun hin _ => by
        obtain ⟨-, hin⟩ := hin
        have hlimit : n'.limit = m.limit := by simp [Mbuf.limit, hext, n']
        refine ⟨by simp [Mbuf.base, n'], ?_⟩
        rw [hlimit]
        change m.m_data + off + min len (m.m_len - off) ≤ m.limit
        omega
      plenty := id
      nextcl := le_rfl
      refs_old := fun x _ => by
        rw [users_singleton_of_some (show n'.m_ext = some e from rfl)]
        by_cases h : e.ext_buf = x
        · simp [h]
        · simp [h, Ne.symm h]
      refs_new := fun x hx hx' => absurd hx' (not_lt.mpr hx)
      owned := fun h => by cases h
      shared := fun _ => hext.symm
      plain := fun h => by rw [hext] at h; cases h }

theorem m_trailingspace_plain {n : Mbuf} (h : n.m_ext = none) (mem : Mem) :
    m_trailingspace mem n = MLEN - (n.m_data + n.m_len) := by
  simp [m_trailingspace, Mem.M_READONLY, Mbuf.limit, h]

theorem m_trailingspace_owned {n : Mbuf} {e : Ext} (h : n.m_ext = some e) (hwr : e.extwr = true)
    {mem : Mem} (href : mem.refs e.ext_buf = 1) :
    m_trailingspace mem n = e.ext_size - (n.m_data + n.m_len) := by
  simp [m_trailingspace, Mem.M_READONLY, Mbuf.limit, h, hwr, href]

theorem m_clpool_MCLBYTES : m_clpool MCLBYTES = some MCLBYTES := rfl

theorem Blank.base_lt (hn : Blank mem₀ mem n) : n.base < MLEN := by
  unfold Mbuf.base
  rw [hn.ext]
  cases n.m_pkthdr <;> simp [PKTDAT, MLEN, MHLEN]

theorem copyData_deep_plain (hn : Blank mem₀ mem n) (hm : m.Old mem₀) {e : Ext}
    (hext : m.m_ext = some e) (hg : mem.grants 0 = none) :
    ∃ n' mem', copyData true mem m n off len = some (n', mem') ∧
      DataCopied true mem₀ mem m n off len n' mem' := by
  let n' : Mbuf := { n with m_len := min (min (MLEN - n.m_data) len) (m.m_len - off) }
  have hext' : n'.m_ext = none := hn.ext
  have hbuf : n'.buf = n.buf := rfl
  have hk : mem₀.Keeps mem.advance := hn.keeps.trans (keeps_advance mem)
  refine ⟨n', mem.advance.memcpy n'.buf n'.m_data m.buf (m.m_data + off) n'.m_len, ?_, ?_⟩
  · have htrail : m_trailingspace mem.advance { n with m_len := 0 } = MLEN - n.m_data :=
      m_trailingspace_plain (n := { n with m_len := 0 }) hn.ext _
    simp only [copyData, hext, m_clget, m_clpool_MCLBYTES, hg, htrail, n']
  · exact {
      addr := rfl
      pkthdr := rfl
      zeroize := rfl
      keeps := hk.copyin (hbuf ▸ hn.notOld) _ _
      old := ⟨hn.exists_, fun e he => by rw [hext'] at he; cases he⟩
      len_le := min_le_min_right _ (min_le_right _ _)
      progress := fun hlen hoff => by
        have := hn.base_lt
        rw [← hn.data] at this
        change 0 < min (min (MLEN - n.m_data) len) (m.m_len - off)
        omega
      full := fun h => by cases h
      bytes := copied_bytes hk hm n' (min_le_right _ _)
      storage := fun _ _ => by
        have := hn.base_lt
        rw [← hn.data] at this
        have hlimit : n'.limit = MLEN := by simp [Mbuf.limit, hext']
        refine ⟨hn.data.ge, ?_⟩
        rw [hlimit]
        change n.m_data + min (min (MLEN - n.m_data) len) (m.m_len - off) ≤ MLEN
        omega
      plenty := fun h => absurd hg (h 0)
      nextcl := le_rfl
      refs_old := fun x _ => by rw [users_singleton_of_none hext']; rfl
      refs_new := fun x hx hx' => absurd hx' (not_lt.mpr hx)
      owned := fun _ e he => by rw [hext'] at he; cases he
      shared := fun h => by cases h
      plain := fun h => by rw [hext] at h; cases h }

theorem copyData_deep_cluster (hn : Blank mem₀ mem n) (hm : m.Old mem₀) {e : Ext}
    (hext : m.m_ext = some e) {junk : ℕ} (hg : mem.grants 0 = some junk) :
    ∃ n' mem', copyData true mem m n off len = some (n', mem') ∧
      DataCopied true mem₀ mem m n off len n' mem' := by
  let e' : Ext := ⟨mem.nextcl, MCLBYTES, true⟩
  let n' : Mbuf :=
    { n with m_len := min (min MCLBYTES len) (m.m_len - off), m_data := 0, m_ext := some e' }
  let mem₁ : Mem := { mem.advance with
    nextcl := mem.nextcl + 1, refs := Function.update mem.refs mem.nextcl 1 }
  have hk : mem₀.Keeps mem₁ := hn.keeps.trans (keeps_nextcl mem _)
  have hbuf : n'.buf = .ext mem.nextcl := rfl
  refine ⟨n', mem₁.memcpy n'.buf n'.m_data m.buf (m.m_data + off) n'.m_len, ?_, ?_⟩
  · have htrail : m_trailingspace mem₁
        { n with m_len := 0, m_data := 0, m_ext := some e' } = MCLBYTES :=
      m_trailingspace_owned (e := e') rfl rfl (Function.update_self _ _ _)
    simp only [copyData, hext, m_clget, m_clpool_MCLBYTES, hg]
    rw [htrail]
  · exact {
      addr := rfl
      pkthdr := rfl
      zeroize := rfl
      keeps := hk.copyin (by rw [hbuf]; exact not_lt.mpr hn.keeps.nextcl) _ _
      old := ⟨hn.exists_, fun e he => by
        obtain rfl := Option.some.inj he
        exact Nat.lt_succ_self _⟩
      len_le := min_le_min_right _ (min_le_right _ _)
      progress := fun hlen hoff => by
        change 0 < min (min MCLBYTES len) (m.m_len - off)
        have : 0 < MCLBYTES := by decide
        omega
      full := fun h => by cases h
      bytes := copied_bytes hk hm n' (min_le_right _ _)
      storage := fun _ _ => by
        refine ⟨le_rfl, ?_⟩
        change 0 + min (min MCLBYTES len) (m.m_len - off) ≤ MCLBYTES
        omega
      plenty := fun h i => h (i + 1)
      nextcl := Nat.le_succ _
      refs_old := fun x hx => by
        rw [users_singleton_of_some (show n'.m_ext = some e' from rfl), if_neg (by exact hx.ne')]
        exact Function.update_of_ne hx.ne _ _
      refs_new := fun x hx hx' => by
        obtain rfl : mem.nextcl = x := le_antisymm hx (Nat.lt_succ_iff.mp hx')
        rw [users_singleton_of_some (show n'.m_ext = some e' from rfl), if_pos rfl]
        exact Function.update_self _ _ _
      owned := fun _ e he => by
        obtain rfl := Option.some.inj he
        exact ⟨le_rfl, rfl⟩
      shared := fun h => by cases h
      plain := fun h => by rw [hext] at h; cases h }

theorem copyData_spec (deep : Bool) (len : ℕ) (hn : Blank mem₀ mem n) (hm : m.Old mem₀) (hoff : off ≤ m.m_len) :
    ∃ n' mem', copyData deep mem m n off len = some (n', mem') ∧
      DataCopied deep mem₀ mem m n off len n' mem' := by
  cases hext : m.m_ext with
  | none => exact copyData_plain hn hm hext
  | some e =>
    cases deep with
    | false => exact copyData_shallow hn hm hext hoff
    | true =>
      cases hg : mem.grants 0 with
      | none => exact copyData_deep_plain hn hm hext hg
      | some junk => exact copyData_deep_cluster hn hm hext hg

theorem blank_plain (mem : Mem) (junk : ℕ) :
    Blank mem { mem.advance with next := mem.next + 1 } (mem.plain junk) :=
  ⟨keeps_next mem, le_rfl, Nat.lt_succ_self _, rfl, rfl⟩

theorem Blank.withGrants (hn : Blank mem₀ mem n) (g : ℕ → Option ℕ) :
    Blank mem₀ (mem.withGrants g) n :=
  ⟨hn.keeps.trans (mem.keeps_withGrants g), hn.fresh, hn.exists_, hn.ext, hn.data⟩

/-- What becomes of a new mbuf when the header is copied to it. -/
structure Headed (m0 n n' : Mbuf) (len : ℕ) (copyhdr : Bool) : Prop where
  addr : n'.addr = n.addr
  none : copyhdr = false → n' = n
  base : copyhdr = true → n'.base = PKTDAT
  zeroize : copyhdr = true → n'.zeroize = m0.zeroize
  pkthdr : copyhdr = true → ∀ ph, m0.m_pkthdr = some ph →
    n'.m_pkthdr = some { ph with len := if len ≠ M_COPYALL then (len : ℤ) else ph.len }

theorem copyHeader_cases (len : ℕ) (hn : Blank mem₀ mem n) {m0 : Mbuf} {copyhdr : Bool}
    (hhdr : copyhdr = true → m0.m_pkthdr ≠ none) :
    ∃ n' g, (mem.Plenty → (mem.withGrants g).Plenty) ∧
      (copyHeader mem n m0 len copyhdr = some (true, n', mem.withGrants g) ∧ ¬ mem.Plenty ∧
          copyhdr = true ∧ n'.m_ext = none ∧ n'.addr = n.addr ∧ n'.zeroize = m0.zeroize ∨
        copyHeader mem n m0 len copyhdr = some (false, n', mem.withGrants g) ∧
          Blank mem₀ (mem.withGrants g) n' ∧ Headed m0 n n' len copyhdr) := by
  cases copyhdr with
  | false =>
    exact ⟨n, mem.grants, id, .inr ⟨rfl, hn, rfl, fun _ => rfl, by simp, by simp, by simp⟩⟩
  | true =>
    obtain ⟨ph, hph⟩ := Option.ne_none_iff_exists'.mp (hhdr rfl)
    obtain ⟨g, hp, ⟨hd, hno⟩ | hd⟩ := m_dup_pkthdr_cases mem n hph
    · exact ⟨{ n with m_pkthdr := some { ph with tags := [] }, zeroize := m0.zeroize }, g, hp,
        .inl ⟨by simp only [copyHeader, if_true, hd], hno, rfl, hn.ext, rfl, rfl⟩⟩
    · refine ⟨if len ≠ M_COPYALL then (n.headed m0 ph).setPktLen len else n.headed m0 ph, g, hp,
        .inr ⟨by simp only [copyHeader, if_true, hd], ?_, ?_⟩⟩
      · refine ⟨(hn.withGrants g).keeps, ?_, ?_, ?_, ?_⟩ <;> split_ifs
        · exact hn.fresh
        · exact hn.fresh
        · exact hn.exists_
        · exact hn.exists_
        · exact hn.ext
        · exact hn.ext
        · simp [Mbuf.setPktLen, Mbuf.headed, Mbuf.base, hn.ext]
        · simp [Mbuf.headed, Mbuf.base, hn.ext]
      · refine ⟨?_, by simp, fun _ => ?_, fun _ => ?_, fun _ ph' hph' => ?_⟩
        · split_ifs <;> rfl
        · split_ifs <;> simp [Mbuf.setPktLen, Mbuf.headed, Mbuf.base, hn.ext]
        · split_ifs <;> rfl
        · obtain rfl := Option.some.inj (hph.symm.trans hph')
          split_ifs <;> rfl

end Data

end OpenbsdKernel.UipcMbuf
