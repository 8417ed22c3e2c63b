import OpenbsdKernel.Kern.Mbuf.Writeback

/-!
# When writing into a chain does what it should

Beyond the end of the chain a new mbuf is made for the gap and the data; there is no pool
for more than `MAXMCLBYTES` bytes, and without data the gap is not counted. Within the
chain the write is one through a list of locations, which shows as intended unless two
positions of the chain that share a cell are to hold different bytes.
-/
namespace OpenbsdKernel.UipcMbuf

open Store

section Gap

variable {mem : Mem} {len off : ℕ}

theorem gapLoop_within (mem : Mem) (len : ℕ) (post : List Mbuf) (m : Mbuf) (off : ℕ)
    (hoff : off ≤ chainLen (m :: post)) :
    ∃ pre k post' o, gapLoop mem len m post off =
        some (pre, some (k, post', o), chainLen pre, mem) ∧
      m :: post = pre ++ k :: post' ∧ off = chainLen pre + o ∧ o ≤ k.m_len := by
  induction post generalizing m off with
  | nil =>
    have hle : ¬ m.m_len < off := by
      simp at hoff
      omega
    exact ⟨[], m, [], off, by rw [gapLoop, if_neg hle]; rfl, rfl, by simp, by omega⟩
  | cons k post ih =>
    by_cases h : m.m_len < off
    · rw [chainLen_cons] at hoff
      obtain ⟨pre, j, post', o, heq, hsplit, hsum, ho⟩ := ih k (off - m.m_len) (by omega)
      refine ⟨m :: pre, j, post', o, ?_, by rw [hsplit]; rfl, ?_, ho⟩
      · rw [gapLoop, if_pos h]
        simp [heq, Nat.add_comm]
      · rw [chainLen_cons]
        omega
    · exact ⟨[], m, k :: post, off, by rw [gapLoop, if_neg h]; rfl, rfl, by simp, by omega⟩

/-- A new mbuf for a gap and what is to follow it. -/
structure Filler (mem : Mem) (gap len : ℕ) (n : Mbuf) (mem' : Mem) : Prop where
  keeps : mem.Keeps mem'
  len : n.m_len = len + gap
  data : n.m_data = 0
  pkthdr : n.m_pkthdr = none
  fresh : ¬ mem.Old n.buf
  zeros : mem'.store.read (region n.buf 0 gap) = List.replicate gap 0

theorem gapLoop_beyond (mem : Mem) (len : ℕ) (post : List Mbuf) (m : Mbuf) (off : ℕ)
    (hoff : chainLen (m :: post) < off)
    (hsize : off - chainLen (m :: post) + len ≤ MAXMCLBYTES) :
    (∃ mem', gapLoop mem len m post off =
        some (m :: post, none, chainLen (m :: post), mem') ∧ mem.Keeps mem' ∧ ¬ mem.Plenty) ∨
      ∃ n mem', gapLoop mem len m post off =
          some (m :: post, some (n, [], off - chainLen (m :: post)), chainLen (m :: post), mem') ∧
        Filler mem (off - chainLen (m :: post)) len n mem' := by
  induction post generalizing m off with
  | nil =>
    have hlt : m.m_len < off := by simpa using hoff
    have hlen : chainLen [m] = m.m_len := by simp
    rw [hlen] at hsize ⊢
    rw [gapLoop, if_pos hlt]
    rcases m_get_cases mem with ⟨hg, hget⟩ | ⟨junk, hg, hget⟩
    · simp only [hget]
      exact .inl ⟨mem.advance, rfl, keeps_advance mem, fun h => h 0 hg⟩
    simp only [hget]
    obtain ⟨r, mem₂, hgrow, hk, -, hno, -, hr⟩ := grow_spec (new_plain mem junk) hsize
    simp only [hgrow]
    cases r with
    | none => exact .inl ⟨mem₂, rfl, hk, fun h => hno rfl fun i => h (i + 1)⟩
    | some n =>
      obtain ⟨hdata, hhdr, hfresh⟩ := hr n rfl
      refine .inr ⟨_, _, rfl, hk.copyin hfresh _ _, rfl, hdata, hhdr, hfresh, ?_⟩
      simp only [hdata]
      exact read_copyin_self mem₂ n.buf 0 _ _ (by simp)
  | cons k post ih =>
    have hlen : chainLen (m :: k :: post) = m.m_len + chainLen (k :: post) := rfl
    have hsub : off - chainLen (m :: k :: post) = off - m.m_len - chainLen (k :: post) := by omega
    rw [hlen] at hoff
    rw [hsub] at hsize ⊢
    rw [gapLoop, if_pos (by omega)]
    rcases ih k (off - m.m_len) (by omega) hsize with ⟨mem', heq, hk, hno⟩ | ⟨n, mem', heq, hf⟩
    · exact .inl ⟨mem', by simp [heq, Nat.add_comm], hk, hno⟩
    · exact .inr ⟨n, mem', by simp [heq, Nat.add_comm], hf⟩

theorem gapLoop_none (mem : Mem) (len : ℕ) (post : List Mbuf) (m : Mbuf) (off : ℕ)
    (hplenty : mem.Plenty) (hoff : chainLen (m :: post) < off)
    (hsize : MAXMCLBYTES < off - chainLen (m :: post) + len) :
    gapLoop mem len m post off = none := by
  induction post generalizing m off with
  | nil =>
    have hlt : m.m_len < off := by simpa using hoff
    rw [gapLoop, if_pos hlt]
    rcases m_get_cases mem with ⟨hg, -⟩ | ⟨junk, -, hget⟩
    · exact absurd hg (hplenty 0)
    · simp only [hget, grow_none _ _ (show MAXMCLBYTES < off - m.m_len + len by simpa using hsize)]
  | cons k post ih =>
    have hlen : chainLen (m :: k :: post) = m.m_len + chainLen (k :: post) := rfl
    rw [hlen] at hoff hsize
    rw [gapLoop, if_pos (by omega)]
    simp [ih k (off - m.m_len) (by omega) (by omega)]

theorem writeLoop_none (post : List Mbuf) (i : ℕ) (mem : Mem) (m : Mbuf) (off : ℕ)
    (cp : List UInt8) (hplenty : mem.Plenty) (hoff : off ≤ m.m_len)
    (hsize : MAXMCLBYTES < off + cp.length - chainLen (m :: post) - trailing mem (m :: post)) :
    writeLoop i mem m post off cp = none := by
  induction post generalizing i mem m off cp with
  | nil =>
    cases i with
    | zero => rfl
    | succ i =>
      have htrail : trailing mem [m] = m_trailingspace mem m := by simp [trailing]
      rw [htrail] at hsize
      simp only [chainLen_cons, chainLen_nil, Nat.add_zero] at hsize
      have hcp : cp ≠ [] := by
        rintro rfl
        simp at hsize
        omega
      have he : extra mem m off cp.length = m_trailingspace mem m := by
        unfold extra
        omega
      have hmin : min (m.m_len + m_trailingspace mem m - off) cp.length =
          m.m_len + m_trailingspace mem m - off := by omega
      have hdrop : cp.drop (m.m_len + m_trailingspace mem m - off) ≠ [] := by
        rw [Ne, List.drop_eq_nil_iff]
        omega
      rw [writeLoop, if_neg hcp, extend_last, he]
      simp only [hmin, if_neg hdrop]
      generalize hmem₁ : mem.copyin _ _ _ = mem₁
      have hplenty₁ : mem₁.Plenty := hmem₁ ▸ hplenty
      rcases m_get_cases mem₁ with ⟨hg, -⟩ | ⟨junk, -, hget⟩
      · exact absurd hg (hplenty₁ 0)
      · have hbig : MAXMCLBYTES < (cp.drop (m.m_len + m_trailingspace mem m - off)).length := by
          rw [List.length_drop]
          omega
        simp only [hget, grow_none _ _ hbig]
  | cons k post ih =>
    cases i with
    | zero => rfl
    | succ i =>
      rw [trailing_cons_cons, chainLen_cons m] at hsize
      have hcp : cp ≠ [] := by
        rintro rfl
        simp at hsize
        omega
      have hmin : min (m.m_len - off) cp.length = m.m_len - off := by omega
      have hdrop : cp.drop (m.m_len - off) ≠ [] := by
        rw [Ne, List.drop_eq_nil_iff]
        omega
      rw [writeLoop, if_neg hcp, extend_cons]
      simp only [hmin, if_neg hdrop]
      rw [ih i (mem.copyin m.buf (m.m_data + off) (cp.take (m.m_len - off))) k 0
        (cp.drop (m.m_len - off)) hplenty (Nat.zero_le _) (by
          rw [List.length_drop]
          change MAXMCLBYTES < 0 + (cp.length - (m.m_len - off)) - chainLen (k :: post) -
            trailing mem (k :: post)
          omega)]
      rfl

end Gap

section Cells

variable {mem mem' : Mem} {c back : List Mbuf} {off more k e : ℕ} {cp : List UInt8} {error : Bool}
  {fs : List (Buf × ℕ)}

/-- The free cells behind an mbuf that is not shared are not shown anywhere in its chain. -/
theorem free_cells_disjoint (hwf : ChainWf mem c) {last : Mbuf} (hlast : last ∈ c.getLast?)
    (hro : mem.M_READONLY last = false) (e : ℕ) :
    ∀ l ∈ region last.buf (last.m_data + last.m_len) e, l ∉ chainLocs c := by
  obtain ⟨init, rfl⟩ := List.getLast?_eq_some_iff.mp hlast
  intro l hl hshown
  obtain ⟨hbuf, hlow, -⟩ := mem_region.mp hl
  rw [chainLocs_append, List.mem_append] at hshown
  rcases hshown with hshown | hshown
  · obtain ⟨m, hm, hml⟩ := List.mem_flatMap.mp hshown
    have hsame : m.buf = last.buf := (mem_region.mp hml).1.symm.trans hbuf
    cases hext : last.m_ext with
    | none =>
      have haddr := hwf.addr
      rw [List.map_append, List.nodup_append'] at haddr
      have hm' : m.m_ext = none ∧ m.addr = last.addr := by
        unfold Mbuf.buf at hsame
        rw [hext] at hsame
        cases hmx : m.m_ext with
        | none =>
          rw [hmx] at hsame
          exact ⟨rfl, by simpa using hsame⟩
        | some e =>
          rw [hmx] at hsame
          cases hsame
      exact haddr.2.2 (List.mem_map_of_mem hm) (by simp [hm'.2])
    | some x =>
      have hx : last.buf = .ext x.ext_buf := buf_eq_ext.mpr ⟨x, hext, rfl⟩
      obtain ⟨-, hone⟩ := M_READONLY_eq_false.mp hro x hext
      have hrefs := hwf.refs x.ext_buf
      have hpos := users_pos hm (hsame.trans hx)
      rw [users_append, hone, users_cons, if_pos hx] at hrefs
      omega
  · simp only [chainLocs_cons, chainLocs_nil, List.append_nil] at hshown
    obtain ⟨-, -, hhigh⟩ := mem_region.mp hshown
    omega

/-- The cells that the write adds to the chain are new to it, and different. -/
theorem Written.cells (hwf : ChainWf mem c) {last : Mbuf} (hlast : last ∈ c.getLast?)
    (h : Written mem c off cp back more error mem' k e fs) :
    (region last.buf (last.m_data + last.m_len) e ++ fs).Nodup ∧
      ∀ l ∈ region last.buf (last.m_data + last.m_len) e ++ fs, l ∉ chainLocs c := by
  have hmem : last ∈ c := List.mem_of_getLast? hlast
  have hfs : fs.Nodup ∧ ∀ l ∈ fs, ¬ mem.Old l.1 := by
    rcases h.fresh with rfl | ⟨b, n, hb, rfl⟩
    · simp
    · refine ⟨nodup_region _ _ _, fun l hl => ?_⟩
      rwa [(mem_region.mp hl).1]
  constructor
  · refine List.nodup_append'.mpr ⟨nodup_region _ _ _, hfs.1, fun l hl hl' => ?_⟩
    refine hfs.2 l hl' ?_
    rw [(mem_region.mp hl).1]
    exact (hwf.old last hmem).buf
  · intro l hl
    rcases List.mem_append.mp hl with hl | hl
    · rcases Nat.eq_zero_or_pos e with rfl | he
      · simp at hl
      · exact free_cells_disjoint hwf hlast (h.trail he.ne' last hlast) e l hl
    · intro hshown
      obtain ⟨m, hm, hml⟩ := List.mem_flatMap.mp hshown
      exact hfs.2 l hl ((hwf.old m hm).locs l hml)

/-- The chain shows the write as it was meant exactly when no cell is meant to show two bytes. -/
theorem Written.read_iff (hwf : ChainWf mem c) (hne : c ≠ []) (hoff : off ≤ chainLen c)
    (h : Written mem c off cp back more error mem' k e fs) :
    mem'.store.read (chainLocs back) =
        overwrite (mem.store.read (chainLocs back)) off (cp.take k) ↔
      Uniform (chainLocs c) (overwrite (mem.bytes c) off cp) := by
  obtain ⟨last, hlast⟩ : ∃ last, last ∈ c.getLast? :=
    ⟨c.getLast hne, List.getLast?_eq_getLast_of_ne_nil hne⟩
  obtain ⟨hnodup, hdisj⟩ := h.cells hwf hlast
  have hlocs := h.locs last hlast
  rw [List.append_assoc] at hlocs
  have hk : (cp.take k).length = k := by simpa using h.le
  have hfits : off + (cp.take k).length ≤ (chainLocs back).length := by
    rw [hk, length_chainLocs]
    exact h.fits
  have hfits' : off ≤ (mem.store.read (chainLocs back)).length := by
    rw [length_read]
    omega
  have hiff := read_put_iff (s := mem.store) hfits
  rw [hk, ← h.store] at hiff
  rw [hiff]
  conv_lhs => arg 1; rw [hlocs]
  refine uniform_append hnodup hdisj fun i hi => ?_
  rw [length_chainLocs] at hi
  have hold : (mem.store.read (chainLocs back))[i]? = (mem.bytes c)[i]? := by
    rw [hlocs, read_append, List.getElem?_append_left (by simpa using hi)]
    rfl
  rw [getElem?_overwrite hfits', getElem?_overwrite (by simpa using hoff), hk, hold]
  by_cases hki : off ≤ i ∧ i < off + k
  · have hle := h.le
    rw [if_pos hki, if_pos ⟨hki.1, by omega⟩, List.getElem?_take_of_lt (by omega)]
  · rw [if_neg hki]
    split_ifs with hcp
    · -- what has not been written lies behind the chain
      cases error with
      | false =>
        have := h.done rfl
        omega
      | true =>
        have hstop := h.stopped rfl
        have hlen : chainLen back = chainLen c + (region last.buf (last.m_data + last.m_len) e ++
            fs).length := by
          rw [← length_chainLocs, hlocs, List.length_append, length_chainLocs]
        omega
    · rfl

end Cells

section Within

variable {mem mem' : Mem} {c pre src back : List Mbuf} {off more k e : ℕ} {cp : List UInt8}
  {error : Bool} {fs : List (Buf × ℕ)}

theorem Written.prepend (hne : src ≠ []) (h : Written mem src off cp back more error mem' k e fs) :
    Written mem (pre ++ src) (chainLen pre + off) cp (pre ++ back)
      (if cp = [] then 0 else chainLen pre + more) error mem' k e fs := by
  have hfits := h.fits
  have hlast : (pre ++ src).getLast? = src.getLast? := List.getLast?_append_of_ne_nil pre hne
  refine ⟨h.le, ?_, ?_, ?_, ?_, h.done, ?_, ?_, ?_, ?_, h.fresh, h.plenty⟩
  · intro m hm
    rw [hlast] at hm
    rw [chainLocs_append, h.locs m hm, chainLocs_append]
    simp only [List.append_assoc]
  · rw [h.store, chainLocs_append, ← List.drop_drop, List.drop_left' (by simp)]
  · rw [chainLen_append]
    omega
  · intro hgrown
    rw [chainLen_append, chainLen_append] at hgrown
    have := h.grown (by omega)
    rw [chainLen_append]
    omega
  · intro herr
    have := h.stopped herr
    rw [chainLen_append]
    omega
  · have := h.total
    split_ifs at this ⊢ <;> omega
  · intro m hm
    cases pre with
    | nil => exact h.head m hm
    | cons p pre => exact ⟨m, hm, rfl⟩
  · intro he m hm
    exact h.trail he m (hlast ▸ hm)

theorem fixLen_locs (totlen : ℕ) (c : List Mbuf) : chainLocs (fixLen totlen c) = chainLocs c := by
  cases c <;> rfl

theorem fixLen_len (totlen : ℕ) (c : List Mbuf) : chainLen (fixLen totlen c) = chainLen c := by
  cases c <;> rfl

theorem fixLen_ne {totlen : ℕ} (h : c ≠ []) : fixLen totlen c ≠ [] := by
  cases c with
  | nil => exact absurd rfl h
  | cons m c => simp [fixLen]

/-- The corrected length is that of the chain when the total is, as far as it exceeds the old
length. -/
theorem fixLen_hdr {totlen : ℕ} (hhdr : HdrLen c)
    (hhead : ∀ m ∈ back.head?, ∃ m' ∈ c.head?, m'.m_pkthdr = m.m_pkthdr)
    (hlen : (if chainLen c < totlen then totlen else chainLen c) = chainLen back) :
    HdrLen (fixLen totlen back) := by
  cases back with
  | nil => simp [HdrLen, fixLen]
  | cons m back =>
    obtain ⟨m', hm', hsame⟩ := hhead m rfl
    rintro _ ⟨⟩ ph hph
    obtain ⟨ph₀, hph₀, rfl⟩ := Option.map_eq_some_iff.mp hph
    have hold := hhdr m' hm' ph₀ (hsame.trans hph₀)
    rw [fixLen_len, ← hlen, hold]
    simp only [Nat.cast_lt]
    split_ifs <;> simp [hold]

theorem m_copyback_within (hne : c ≠ []) (hoff : off ≤ chainLen c)
    (hsize : off + cp.length - chainLen c - trailing mem c ≤ MAXMCLBYTES) :
    ∃ c' back more error mem' k e fs, m_copyback mem c off cp = some (c', error, mem') ∧
      chainLocs c' = chainLocs back ∧ Written mem c off cp back more error mem' k e fs ∧
      (HdrLen c → HdrLen c') ∧ c' ≠ [] := by
  obtain ⟨m, post, rfl⟩ := List.exists_cons_of_ne_nil hne
  obtain ⟨pre, k₀, post', o, hgap, hsplit, hsum, ho⟩ :=
    gapLoop_within mem cp.length post m off hoff
  have htrail : trailing mem (m :: post) = trailing mem (k₀ :: post') := by
    simp only [trailing, hsplit, List.getLast?_append_of_ne_nil pre (by simp : k₀ :: post' ≠ [])]
  have htotal : chainLen (m :: post) = chainLen pre + chainLen (k₀ :: post') := by
    rw [hsplit, chainLen_append]
  obtain ⟨back, more, error, mem', k, e, fs, hloop, hw⟩ := writeLoop_spec post' (post'.length + 2)
    mem k₀ o cp le_rfl ho (by rw [← htrail]; omega)
  have hwhole : Written mem (pre ++ k₀ :: post') (chainLen pre + o) cp (pre ++ back)
      (if cp = [] then 0 else chainLen pre + more) error mem' k e fs := hw.prepend (by simp)
  rw [← hsplit, ← hsum] at hwhole
  refine ⟨fixLen (chainLen pre + more) (pre ++ back), pre ++ back, _, error, mem', k, e, fs, ?_,
    fixLen_locs _ _, hwhole, fun hhdr => fixLen_hdr hhdr (fun j hj => ?_) ?_, ?_⟩
  · simp only [m_copyback, hgap, hloop]
  · obtain ⟨h₀, hh₀⟩ : ∃ h₀, h₀ ∈ (m :: post).head? := ⟨m, rfl⟩
    obtain ⟨j', hj', hsame⟩ := hwhole.head h₀ hh₀
    obtain rfl : j' = j := Option.some.inj (hj'.symm.trans hj)
    exact ⟨h₀, hh₀, hsame.symm⟩
  · have hfits := hwhole.fits
    have hgrown := hwhole.grown
    have hle := hwhole.le
    have hmore := hw.total
    have hgrow : chainLen (m :: post) ≤ chainLen (pre ++ back) := by
      have hlocs := hwhole.locs _ (List.getLast?_eq_getLast_of_ne_nil hne)
      rw [← length_chainLocs, ← length_chainLocs, hlocs, List.append_assoc, List.length_append]
      exact Nat.le_add_right _ _
    by_cases hcp : cp = []
    · rw [if_pos hcp] at hmore
      have : k = 0 := by simpa [hcp] using hle
      split_ifs <;> omega
    · rw [if_neg hcp] at hmore
      split_ifs <;> omega
  · obtain ⟨j, hj, -⟩ := hwhole.head m rfl
    exact fixLen_ne (List.ne_nil_of_mem (List.mem_of_mem_head? hj))

end Within

section Beyond

variable {mem : Mem} {c : List Mbuf} {off : ℕ} {cp : List UInt8}

theorem writeLoop_filler (mem : Mem) {n : Mbuf} {gap : ℕ} (cp : List UInt8)
    (hlen : n.m_len = cp.length + gap) :
    writeLoop 2 mem n [] gap cp = some ([n], if cp = [] then 0 else cp.length + gap, false,
      if cp = [] then mem else mem.copyin n.buf (n.m_data + gap) cp) := by
  have hext : extend mem n [] gap cp.length = n := by simp [extend, hlen]
  have hmin : min (n.m_len - gap) cp.length = cp.length := by omega
  rw [writeLoop]
  by_cases hcp : cp = []
  · simp [hcp]
  · simp [hcp, hext, hlen]

theorem m_copyback_beyond (hwf : ChainWf mem c) (hne : c ≠ []) (hoff : chainLen c < off)
    (hsize : off - chainLen c + cp.length ≤ MAXMCLBYTES) :
    (∃ c' mem', m_copyback mem c off cp = some (c', true, mem') ∧ mem'.bytes c' = mem.bytes c ∧
        (HdrLen c → HdrLen c') ∧ ¬ mem.Plenty) ∨
      ∃ c' mem', m_copyback mem c off cp = some (c', false, mem') ∧
        mem'.bytes c' = mem.bytes c ++ List.replicate (off - chainLen c) 0 ++ cp ∧ c' ≠ [] ∧
        ((HdrIs c → cp ≠ []) → HdrLen c → HdrLen c') ∧ (cp = [] → HdrIs c → ¬ HdrLen c') := by
  obtain ⟨m, post, rfl⟩ := List.exists_cons_of_ne_nil hne
  rcases gapLoop_beyond mem cp.length post m off hoff hsize with
    ⟨mem', hgap, hk, hno⟩ | ⟨n, mem', hgap, hf⟩
  · refine .inl ⟨fixLen (chainLen (m :: post)) (m :: post), mem', by simp only [m_copyback, hgap],
      ?_, fun hhdr => fixLen_hdr hhdr (fun j hj => ⟨j, hj, rfl⟩) (by simp), hno⟩
    rw [Mem.bytes, fixLen_locs]
    exact hk.bytes hwf.old
  generalize hgapeq : off - chainLen (m :: post) = gap at *
  have hgap0 : 0 < gap := by omega
  have hloop := writeLoop_filler mem' cp hf.len
  have hlen : chainLen (m :: post ++ [n]) = chainLen (m :: post) + (cp.length + gap) := by
    rw [chainLen_append]
    simp [hf.len]
  refine .inr ⟨fixLen (chainLen (m :: post) + if cp = [] then 0 else cp.length + gap)
    (m :: post ++ [n]), if cp = [] then mem' else mem'.copyin n.buf (n.m_data + gap) cp,
    ?_, ?_, fixLen_ne (by simp), fun hdata hhdr => ?_, ?_⟩
  · simp only [m_copyback, hgap, hloop, List.length_nil, Nat.zero_add]
  · have hlocs : n.locs = region n.buf 0 gap ++ region n.buf gap cp.length := by
      rw [Mbuf.locs, hf.data, hf.len, Nat.add_comm, region_add, Nat.zero_add]
    rw [Mem.bytes, fixLen_locs, chainLocs_append, read_append, List.append_assoc]
    by_cases hcp : cp = []
    · rw [if_pos hcp]
      congr 1
      · exact hf.keeps.bytes hwf.old
      · simp [hlocs, hf.zeros, hcp]
    · rw [if_neg hcp]
      have hk := hf.keeps.copyin hf.fresh (n.m_data + gap) cp
      have hzeros : (mem'.copyin n.buf (n.m_data + gap) cp).store.read (region n.buf 0 gap) =
          List.replicate gap 0 := by
        rw [← hf.zeros]
        refine read_write_of_disjoint _ _ _ _ fun l hl hl' => ?_
        have h₁ := (mem_region.mp hl).2.2
        have h₂ := (mem_region.mp hl').2.1
        omega
      have hdata : (mem'.copyin n.buf (n.m_data + gap) cp).store.read
          (region n.buf gap cp.length) = cp := by
        rw [hf.data, Nat.zero_add]
        exact read_copyin_self _ _ _ _ _ rfl
      congr 1
      · exact hk.bytes hwf.old
      · simp [hlocs, hzeros, hdata]
  · by_cases hcp : cp = []
    · -- there is no header, or it would be left behind
      rintro j hj ph hph
      obtain rfl : _ = j := Option.some.inj hj
      obtain ⟨ph₀, hph₀, -⟩ := Option.map_eq_some_iff.mp hph
      exact absurd hcp (hdata ⟨m, rfl, ph₀, hph₀, hhdr m rfl ph₀ hph₀⟩)
    rw [if_neg hcp]
    refine fixLen_hdr hhdr (fun j hj => ⟨j, hj, rfl⟩) ?_
    rw [if_pos (by omega), hlen]
  · rintro rfl ⟨h, hh, ph, hph, hlenhdr⟩ hbad
    obtain rfl : m = h := Option.some.inj hh
    rw [Option.mem_def] at hph
    have hhead := hbad { m with m_pkthdr := some ph } (by simp [fixLen, hph, hlenhdr]) ph rfl
    rw [fixLen_len, hlen, hlenhdr] at hhead
    simp only [List.length_nil] at hhead
    omega

end Beyond

section Main

variable {mem : Mem} {c : List Mbuf} {off : ℕ} {cp : List UInt8}

/-- The outcome asked of `m_copyback`. On every return the header keeps the length of the chain and
the bytes in front of `off` are unchanged, with zeros behind the old end; on success the buffer
stands at `off`, the bytes behind it are unchanged, and `m_copydata` returns it. -/
def CopybackOk (mem : Mem) (c : List Mbuf) (off : ℕ) (cp : List UInt8) : Prop :=
  ∃ c' error mem', m_copyback mem c off cp = some (c', error, mem') ∧
    (HdrLen c → HdrLen c') ∧
    (∃ z ≤ off - chainLen c,
      (mem'.bytes c').take off = (mem.bytes c).take off ++ List.replicate z 0) ∧
    (error = false →
      mem'.bytes c' = overwrite (mem.bytes c ++ List.replicate (off - chainLen c) 0) off cp ∧
        m_copydata mem' c' off cp.length = some cp)

/-- A gap is filled in a chain with a header only when there is data to follow it; no new mbuf has
to hold more than `MAXMCLBYTES` bytes; and no cell that two positions of the chain share is to hold
two different bytes. -/
def CopybackSafe (mem : Mem) (c : List Mbuf) (off : ℕ) (cp : List UInt8) : Prop :=
  (HdrIs c → cp = [] → off ≤ chainLen c) ∧
    (chainLen c < off → off - chainLen c + cp.length ≤ MAXMCLBYTES) ∧
    (off ≤ chainLen c → off + cp.length - chainLen c - trailing mem c ≤ MAXMCLBYTES) ∧
    Uniform (chainLocs c) (overwrite (mem.bytes c) off cp)

theorem uniform_beyond (hoff : chainLen c < off) :
    Uniform (chainLocs c) (overwrite (mem.bytes c) off cp) := by
  have hsame : ∀ i < (chainLocs c).length, (overwrite (mem.bytes c) off cp)[i]? =
      (mem.bytes c)[i]? := by
    intro i hi
    rw [overwrite, List.take_of_length_le (by simp; omega), List.append_assoc,
      List.getElem?_append_left (by simpa using hi)]
  intro i j hi hij
  have hj : j < (chainLocs c).length := by
    rw [List.getElem?_eq_getElem hi] at hij
    exact (List.getElem?_eq_some_iff.mp hij.symm).1
  rw [hsame i hi, hsame j hj]
  exact uniform_read mem.store (chainLocs c) i j hi hij

theorem m_copydata_overwrite {mem' : Mem} {c' : List Mbuf} {us : List UInt8} (hne : c' ≠ [])
    (hbytes : mem'.bytes c' = overwrite us off cp) (hoff : off ≤ us.length) :
    m_copydata mem' c' off cp.length = some cp := by
  have htake : (us.take off).length = off := by simpa using hoff
  have hlen : off + cp.length ≤ chainLen c' := by
    rw [← mem'.length_bytes c', hbytes, overwrite, List.append_assoc, List.length_append, htake,
      List.length_append]
    omega
  rw [m_copydata_spec mem' hne hlen, hbytes, overwrite, List.append_assoc, List.drop_left' htake,
    List.take_left' rfl]

theorem m_copyback_beyond_none (hplenty : mem.Plenty) (hne : c ≠ []) (hoff : chainLen c < off)
    (hsize : MAXMCLBYTES < off - chainLen c + cp.length) : m_copyback mem c off cp = none := by
  obtain ⟨m, post, rfl⟩ := List.exists_cons_of_ne_nil hne
  simp only [m_copyback, gapLoop_none mem cp.length post m off hplenty hoff hsize]

theorem m_copyback_within_none (hplenty : mem.Plenty) (hne : c ≠ []) (hoff : off ≤ chainLen c)
    (hsize : MAXMCLBYTES < off + cp.length - chainLen c - trailing mem c) :
    m_copyback mem c off cp = none := by
  obtain ⟨m, post, rfl⟩ := List.exists_cons_of_ne_nil hne
  obtain ⟨pre, k, post', o, hgap, hsplit, hsum, ho⟩ :=
    gapLoop_within mem cp.length post m off hoff
  have htrail : trailing mem (m :: post) = trailing mem (k :: post') := by
    simp only [trailing, hsplit, List.getLast?_append_of_ne_nil pre (by simp : k :: post' ≠ [])]
  have htotal : chainLen (m :: post) = chainLen pre + chainLen (k :: post') := by
    rw [hsplit, chainLen_append]
  have hnone := writeLoop_none post' (post'.length + 2) mem k o cp hplenty ho (by omega)
  simp only [m_copyback, hgap, hnone]

theorem overwrite_through {us ws vs : List UInt8} {n : ℕ} (hn : n ≤ us.length)
    (hend : us.length < (us ++ ws).length → n + vs.length = (us ++ ws).length) :
    overwrite (us ++ ws) n vs = overwrite us n vs := by
  cases ws with
  | nil => rw [List.append_nil]
  | cons w ws =>
    have hlen := hend (by simp)
    have hdrop : us.drop (n + vs.length) = [] := by
      rw [hlen, List.drop_eq_nil_iff]
      simp
    rw [overwrite, overwrite, List.take_append_of_le_length hn, hlen, List.drop_length, ← hlen,
      hdrop]

theorem copybackOk_within (hwf : ChainWf mem c) (hne : c ≠ []) (hoff : off ≤ chainLen c)
    (hsize : off + cp.length - chainLen c - trailing mem c ≤ MAXMCLBYTES)
    (huniform : Uniform (chainLocs c) (overwrite (mem.bytes c) off cp)) :
    CopybackOk mem c off cp := by
  obtain ⟨c', back, more, error, mem', k, e, fs, heq, hlocs, hw, hhdr, hne'⟩ :=
    m_copyback_within hne hoff hsize
  have hread := (hw.read_iff hwf hne hoff).mpr huniform
  obtain ⟨last, hlast⟩ : ∃ last, last ∈ c.getLast? :=
    ⟨c.getLast hne, List.getLast?_eq_getLast_of_ne_nil hne⟩
  obtain ⟨ws, hback⟩ : ∃ ws, mem.store.read (chainLocs back) = mem.bytes c ++ ws := by
    rw [hw.locs last hlast, List.append_assoc, read_append]
    exact ⟨_, rfl⟩
  have hk : (cp.take k).length = k := by simpa using hw.le
  have hbytes : mem'.bytes c' = overwrite (mem.bytes c) off (cp.take k) := by
    rw [Mem.bytes, hlocs, hread, hback]
    refine overwrite_through (by simpa using hoff) fun hgrown => ?_
    rw [← hback, length_read, length_chainLocs] at hgrown ⊢
    rw [hk]
    exact hw.grown (by simpa using hgrown)
  have hzero : off - chainLen c = 0 := by omega
  refine ⟨c', error, mem', heq, hhdr, ⟨0, by omega, ?_⟩, ?_⟩
  · have htake : ((mem.bytes c).take off).length = off := by simpa using hoff
    rw [hbytes, overwrite, List.append_assoc, List.take_left' htake]
    simp
  · rintro rfl
    rw [List.take_of_length_le (hw.done rfl).ge] at hbytes
    refine ⟨by simpa [hzero] using hbytes, ?_⟩
    exact m_copydata_overwrite hne' hbytes (by simpa using hoff)

theorem copybackOk_beyond (hwf : ChainWf mem c) (hne : c ≠ []) (hoff : chainLen c < off)
    (hempty : HdrIs c → cp ≠ []) (hsize : off - chainLen c + cp.length ≤ MAXMCLBYTES) :
    CopybackOk mem c off cp := by
  have hshort : (mem.bytes c).length ≤ off := by
    rw [mem.length_bytes]
    omega
  rcases m_copyback_beyond hwf hne hoff hsize with
    ⟨c', mem', heq, hbytes, hhdr, -⟩ | ⟨c', mem', heq, hbytes, hne', hhdr, -⟩
  · refine ⟨c', true, mem', heq, hhdr, ⟨0, Nat.zero_le _, ?_⟩, by simp⟩
    simp [hbytes]
  · have hfront : (mem.bytes c ++ List.replicate (off - chainLen c) (0 : UInt8)).length = off := by
      rw [List.length_append, mem.length_bytes, List.length_replicate]
      omega
    have hover : mem'.bytes c' =
        overwrite (mem.bytes c ++ List.replicate (off - chainLen c) 0) off cp := by
      rw [hbytes, overwrite, List.take_of_length_le hfront.le, List.drop_eq_nil_of_le,
        List.append_nil]
      omega
    refine ⟨c', false, mem', heq, hhdr hempty, ⟨_, le_rfl, ?_⟩, fun _ => ⟨hover, ?_⟩⟩
    · rw [hbytes, List.take_left' hfront, List.take_of_length_le hshort]
    · exact m_copydata_overwrite hne' hover hfront.ge

theorem safe_of_copybackOk (hwf : ChainWf mem c) (hne : c ≠ []) (hplenty : mem.Plenty)
    (h : CopybackOk mem c off cp) : CopybackSafe mem c off cp := by
  obtain ⟨c₀, error, mem₀, heq, hhdr, -, hdone⟩ := h
  rcases Nat.lt_or_ge (chainLen c) off with hoff | hoff
  · have hsize : off - chainLen c + cp.length ≤ MAXMCLBYTES := by
      by_contra hbig
      rw [m_copyback_beyond_none hplenty hne hoff (by omega)] at heq
      cases heq
    refine ⟨fun his hcp => ?_, fun _ => hsize, fun hle => by omega, uniform_beyond hoff⟩
    rcases m_copyback_beyond hwf hne hoff hsize with
      ⟨c', mem', -, -, -, hno⟩ | ⟨c', mem', heq', -, -, -, hbad⟩
    · exact absurd hplenty hno
    · rw [heq, Option.some.injEq, Prod.mk.injEq, Prod.mk.injEq] at heq'
      obtain ⟨rfl, -, -⟩ := heq'
      exact absurd (hhdr his.hdrLen) (hbad hcp his)
  · have hsize : off + cp.length - chainLen c - trailing mem c ≤ MAXMCLBYTES := by
      by_contra hbig
      rw [m_copyback_within_none hplenty hne hoff (by omega)] at heq
      cases heq
    refine ⟨fun _ _ => hoff, fun hlt => by omega, fun _ => hsize, ?_⟩
    obtain ⟨c', back, more, error', mem', k, e, fs, heq', hlocs, hw, -⟩ :=
      m_copyback_within hne hoff hsize
    rw [heq, Option.some.injEq, Prod.mk.injEq, Prod.mk.injEq] at heq'
    obtain ⟨rfl, rfl, rfl⟩ := heq'
    obtain rfl := hw.plenty hplenty
    obtain ⟨hbytes, -⟩ := hdone rfl
    have hzero : off - chainLen c = 0 := by omega
    rw [hzero, List.replicate_zero, List.append_nil] at hbytes
    -- the chain before the write shows the same in front of the buffer and behind it
    refine (hw.read_iff hwf hne hoff).mp ?_
    rw [← hlocs]
    change mem₀.bytes c₀ = _
    obtain ⟨last, hlast⟩ : ∃ last, last ∈ c.getLast? :=
      ⟨c.getLast hne, List.getLast?_eq_getLast_of_ne_nil hne⟩
    obtain ⟨ws, hback⟩ : ∃ ws, mem.store.read (chainLocs back) = mem.bytes c ++ ws := by
      rw [hw.locs last hlast, List.append_assoc, read_append]
      exact ⟨_, rfl⟩
    have hk : (cp.take k).length = k := by simpa using hw.le
    rw [hbytes, hlocs, hback, overwrite_through (by simpa using hoff),
      List.take_of_length_le (hw.done rfl).ge]
    intro hgrown
    rw [← hback, length_read, length_chainLocs] at hgrown ⊢
    rw [hk]
    exact hw.grown (by simpa using hgrown)

/-- `m_copyback` has the outcome asked for with every pattern of allocations exactly when the write
is safe. -/
theorem m_copyback_correct (hwf : ChainWf mem c) (hne : c ≠ []) :
    (∀ g, CopybackOk (mem.withGrants g) c off cp) ↔ CopybackSafe mem c off cp := by
  constructor
  · intro h
    have hplenty : (mem.withGrants fun _ => some 0).Plenty := fun _ => Option.some_ne_none 0
    have hsafe := safe_of_copybackOk (hwf.withGrants fun _ => some 0) hne hplenty (h fun _ => some 0)
    exact hsafe
  · intro hsafe g
    have hwf' := hwf.withGrants g
    by_cases hoff : off ≤ chainLen c
    · exact copybackOk_within hwf' hne hoff (hsafe.2.2.1 hoff) hsafe.2.2.2
    · have hlt : chainLen c < off := by omega
      exact copybackOk_beyond hwf' hne hlt (fun his hcp => hoff (hsafe.1 his hcp))
        (hsafe.2.1 hlt)

theorem m_copyback_correct_sevenBytes :
    ((∀ g, CopybackOk (roomy.withGrants g) sevenBytes 2 [9, 9]) ↔
        CopybackSafe roomy sevenBytes 2 [9, 9]) ∧
      CopybackSafe roomy sevenBytes 2 [9, 9] := by
  refine ⟨m_copyback_correct sevenBytes_wf (by decide), ?_, by decide, by decide, ?_⟩
  · rintro - ⟨⟩
  · exact uniform_of_nodup (by decide) _

/-- Without data the gap of three bytes is not counted in the header. -/
theorem m_copyback_gap :
    ∃ mem c, ChainWf mem c ∧ c ≠ [] ∧ ¬ CopybackOk mem c 10 [] := by
  refine ⟨roomy, sevenBytes, sevenBytes_wf, by decide, ?_⟩
  have hout : (m_copyback roomy sevenBytes 10 []).map
      (fun r => (r.1.head?.bind Mbuf.m_pkthdr, chainLen r.1)) = some (some ⟨7, []⟩, 10) := by
    decide +kernel
  rintro ⟨c', error, mem', heq, hhdr, -⟩
  rw [heq] at hout
  simp only [Option.map_some, Option.some.injEq, Prod.mk.injEq] at hout
  obtain ⟨hhead, hlen⟩ := hout
  obtain ⟨m, hm, hph⟩ := Option.bind_eq_some_iff.mp hhead
  have hbefore : HdrLen sevenBytes := HdrIs.hdrLen ⟨_, rfl, _, rfl, rfl⟩
  have := hhdr hbefore m hm _ hph
  rw [hlen] at this
  simp at this

end Main

end OpenbsdKernel.UipcMbuf
